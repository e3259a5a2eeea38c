import ElchiShield.Go.Library
import Mathlib.Algebra.Group.Nat.Defs
import Mathlib.Tactic.IntervalCases

/-! # Numbers and hexadecimal text

What the shield uses of the packages `strconv` and `encoding/hex`, and `int64`
arithmetic. -/
namespace ElchiShield.Go

/-- The value an `int64` operation yields. -/
def int64 (n : Int) : Int := n.bmod (2 ^ 64)

/-- The magnitude of `strconv.ParseInt` in base 10. -/
def parseDigits (s : Bytes) : Option Nat :=
  if s = [] || !s.all isDigit then none
  else some (s.foldl (fun n d => n * 10 + (d.toNat - 48)) 0)

/-- `strconv.ParseInt(s, 10, 64)`. -/
def parseInt64 (s : Bytes) : Option Int :=
  let neg := s.head? = some (ch '-')
  let digits := if neg || s.head? = some (ch '+') then s.tail else s
  (parseDigits digits).bind fun n =>
    if neg then if n ≤ 2 ^ 63 then some (-(n : Int)) else none
    else if n < 2 ^ 63 then some n else none

def hexDigit (n : Nat) : UInt8 := UInt8.ofNat (if n < 10 then 48 + n else 87 + n)

/-- `hex.EncodeToString`. -/
def hexEncode (b : Bytes) : Bytes := b.flatMap fun x => [hexDigit (x.toNat / 16), hexDigit (x.toNat % 16)]

theorem hexEncode_length (b : Bytes) : (hexEncode b).length = 2 * b.length := by
  induction b with
  | nil => rfl
  | cons x b ih => simp only [hexEncode, List.flatMap_cons, List.length_append] at ih ⊢; simp; omega

theorem hexEncode_ne_nil {b : Bytes} (h : b ≠ []) : hexEncode b ≠ [] := by
  intro hnil
  have hlength := hexEncode_length b
  rw [hnil, List.length_nil] at hlength
  have hpos := List.length_pos_of_ne_nil h
  omega

def fromHexChar (c : UInt8) : Option Nat :=
  if 48 ≤ c ∧ c ≤ 57 then some (c.toNat - 48)
  else if 97 ≤ c ∧ c ≤ 102 then some (c.toNat - 87)
  else if 65 ≤ c ∧ c ≤ 70 then some (c.toNat - 55)
  else none

/-- `hex.DecodeString`, `none` on an error. -/
def hexDecode : Bytes → Option Bytes
  | [] => some []
  | [_] => none
  | a :: b :: rest => do
    let hi ← fromHexChar a
    let lo ← fromHexChar b
    let decoded ← hexDecode rest
    return UInt8.ofNat (hi * 16 + lo) :: decoded

theorem fromHexChar_hexDigit {n : Nat} (h : n < 16) : fromHexChar (hexDigit n) = some n := by
  interval_cases n <;> rfl

theorem hexDecode_hexEncode (b : Bytes) : hexDecode (hexEncode b) = some b := by
  induction b with
  | nil => rfl
  | cons x b ih =>
    have hhigh : fromHexChar (hexDigit (x.toNat / 16)) = some (x.toNat / 16) :=
      fromHexChar_hexDigit (Nat.div_lt_of_lt_mul x.toNat_lt)
    have hlow : fromHexChar (hexDigit (x.toNat % 16)) = some (x.toNat % 16) :=
      fromHexChar_hexDigit (Nat.mod_lt _ (by decide))
    have hbyte : UInt8.ofNat (x.toNat / 16 * 16 + x.toNat % 16) = x := by
      rw [Nat.div_add_mod', UInt8.ofNat_toNat]
    rw [hexEncode, List.flatMap_cons, List.cons_append, List.cons_append, List.nil_append, hexDecode,
      hhigh, hlow, ← hexEncode, ih]
    exact congrArg (fun y => some (y :: b)) hbyte

theorem hexEncode_inj {a b : Bytes} (h : hexEncode a = hexEncode b) : a = b :=
  Option.some.inj ((hexDecode_hexEncode a).symm.trans ((congrArg hexDecode h).trans
    (hexDecode_hexEncode b)))

end ElchiShield.Go
