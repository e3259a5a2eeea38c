import ElchiShield.Go.Ascii
import Mathlib.Data.Nat.Digits.Defs
import Mathlib.Data.Nat.Digits.Lemmas
import Mathlib.Data.Nat.Size

/-! # Base64 text and big-endian numbers

What the shield uses of `encoding/base64` (the URL alphabet without padding), `math/big` and
`encoding/binary`. The decoder skips line ends and does not look at the bits that are left over
at the end. -/
namespace ElchiShield.Go

/-! ## Base64 -/

def b64Char (n : Nat) : UInt8 :=
  UInt8.ofNat (if n < 26 then 65 + n else if n < 52 then 71 + n else if n < 62 then n - 4
    else if n = 62 then 45 else 95)

def b64Value (c : UInt8) : Option Nat :=
  if 65 ≤ c ∧ c ≤ 90 then some (c.toNat - 65)
  else if 97 ≤ c ∧ c ≤ 122 then some (c.toNat - 71)
  else if 48 ≤ c ∧ c ≤ 57 then some (c.toNat + 4)
  else if c = 45 then some 62
  else if c = 95 then some 63
  else none

/-- The bytes of groups of four six-bit values, the last group of two or three. -/
def b64Groups : List Nat → Option Bytes
  | [] => some []
  | [_] => none
  | [a, b] => some [UInt8.ofNat (a * 4 + b / 16)]
  | [a, b, c] => some [UInt8.ofNat (a * 4 + b / 16), UInt8.ofNat (b % 16 * 16 + c / 4)]
  | a :: b :: c :: d :: rest => (b64Groups rest).map fun bytes =>
    UInt8.ofNat (a * 4 + b / 16) :: UInt8.ofNat (b % 16 * 16 + c / 4) ::
      UInt8.ofNat (c % 4 * 64 + d) :: bytes

def isLineEnd (c : UInt8) : Bool := c = 10 || c = 13

/-- `base64.RawURLEncoding.DecodeString`, `none` on an error. -/
def rawURLDecode (s : Bytes) : Option Bytes :=
  ((s.filter fun c => !isLineEnd c).mapM b64Value).bind b64Groups

/-- The six-bit values of bytes. -/
def b64Digits : Bytes → List Nat
  | [] => []
  | [x] => [x.toNat / 4, x.toNat % 4 * 16]
  | [x, y] => [x.toNat / 4, x.toNat % 4 * 16 + y.toNat / 16, y.toNat % 16 * 4]
  | x :: y :: z :: rest =>
    x.toNat / 4 :: (x.toNat % 4 * 16 + y.toNat / 16) :: (y.toNat % 16 * 4 + z.toNat / 64) ::
      z.toNat % 64 :: b64Digits rest

/-- `base64.RawURLEncoding.EncodeToString`. -/
def rawURLEncode (b : Bytes) : Bytes := (b64Digits b).map b64Char

theorem b64Digits_lt (b : Bytes) : ∀ d ∈ b64Digits b, d < 64 := by
  fun_induction b64Digits b with
  | case1 => simp
  | case2 x =>
    have := x.toNat_lt
    simp only [List.mem_cons, List.not_mem_nil, or_false, forall_eq_or_imp, forall_eq]
    omega
  | case3 x y =>
    have := x.toNat_lt
    have := y.toNat_lt
    simp only [List.mem_cons, List.not_mem_nil, or_false, forall_eq_or_imp, forall_eq]
    omega
  | case4 x y z rest ih =>
    have := x.toNat_lt
    have := y.toNat_lt
    have := z.toNat_lt
    simp only [List.forall_mem_cons]
    exact ⟨by omega, by omega, by omega, by omega, ih⟩

theorem b64Groups_digits (b : Bytes) : b64Groups (b64Digits b) = some b := by
  fun_induction b64Digits b with
  | case1 => rfl
  | case2 x =>
    have := x.toNat_lt
    have hx : x.toNat / 4 * 4 + x.toNat % 4 * 16 / 16 = x.toNat := by omega
    simp only [b64Groups, hx, UInt8.ofNat_toNat]
  | case3 x y =>
    have := x.toNat_lt
    have := y.toNat_lt
    have hx : x.toNat / 4 * 4 + (x.toNat % 4 * 16 + y.toNat / 16) / 16 = x.toNat := by omega
    have hy : (x.toNat % 4 * 16 + y.toNat / 16) % 16 * 16 + y.toNat % 16 * 4 / 4 = y.toNat := by
      omega
    simp only [b64Groups, hx, hy, UInt8.ofNat_toNat]
  | case4 x y z rest ih =>
    have := x.toNat_lt
    have := y.toNat_lt
    have := z.toNat_lt
    have hx : x.toNat / 4 * 4 + (x.toNat % 4 * 16 + y.toNat / 16) / 16 = x.toNat := by omega
    have hy : (x.toNat % 4 * 16 + y.toNat / 16) % 16 * 16 + (y.toNat % 16 * 4 + z.toNat / 64) / 4 =
        y.toNat := by omega
    have hz : (y.toNat % 16 * 4 + z.toNat / 64) % 4 * 64 + z.toNat % 64 = z.toNat := by omega
    simp only [b64Groups, ih, Option.map_some, hx, hy, hz, UInt8.ofNat_toNat]

theorem b64Value_char : ∀ d, d < 64 → b64Value (b64Char d) = some d ∧ isLineEnd (b64Char d) = false := by
  decide +kernel

theorem mapM_b64Value {ds : List Nat} (h : ∀ d ∈ ds, d < 64) :
    (ds.map b64Char).mapM b64Value = some ds := by
  induction ds with
  | nil => rfl
  | cons d ds ih =>
    obtain ⟨hd, hds⟩ := List.forall_mem_cons.mp h
    simp [List.mapM_cons, (b64Value_char d hd).1, ih hds]

/-- What was encoded is decoded. -/
theorem rawURLDecode_encode (b : Bytes) : rawURLDecode (rawURLEncode b) = some b := by
  have hlt := b64Digits_lt b
  have hfilter : (rawURLEncode b).filter (fun c => !isLineEnd c) = rawURLEncode b := by
    refine List.filter_eq_self.mpr fun c hc => ?_
    obtain ⟨d, hd, rfl⟩ := List.mem_map.mp hc
    simp [(b64Value_char d (hlt d hd)).2]
  rw [rawURLDecode, hfilter, rawURLEncode, mapM_b64Value hlt, Option.bind_some, b64Groups_digits]

theorem rawURLEncode_ne_nil {b : Bytes} (h : b ≠ []) : rawURLEncode b ≠ [] := by
  intro hnil
  have hdec := rawURLDecode_encode b
  rw [hnil] at hdec
  exact h (Option.some.inj hdec).symm

/-! ## Numbers -/

/-- `new(big.Int).SetBytes`, and `binary.BigEndian.Uint64` of at most eight bytes. -/
def setBytes (b : Bytes) : Nat := b.foldl (fun n x => n * 256 + x.toNat) 0

/-- `Int.Bytes` of a number that is not negative. -/
def bigBytes (n : Nat) : Bytes := (Nat.digits 256 n).reverse.map UInt8.ofNat

/-- `Int.BitLen`. -/
def bitLen (n : Nat) : Nat := n.size

theorem setBytes_eq (b : Bytes) : setBytes b = Nat.ofDigits 256 (b.reverse.map UInt8.toNat) := by
  unfold setBytes
  induction b using List.reverseRecOn with
  | nil => rfl
  | append_singleton b x ih =>
    rw [List.foldl_append, ih, List.reverse_append]
    simp [Nat.ofDigits_cons, Nat.add_comm, Nat.mul_comm]

theorem setBytes_bigBytes (n : Nat) : setBytes (bigBytes n) = n := by
  have hbytes : (bigBytes n).reverse.map UInt8.toNat = Nat.digits 256 n := by
    rw [bigBytes, ← List.map_reverse, List.reverse_reverse, List.map_map]
    refine (List.map_congr_left fun d hd => ?_).trans (List.map_id _)
    have hlt : d < 256 := Nat.digits_lt_base (by decide) hd
    simp [Nat.mod_eq_of_lt hlt]
  rw [setBytes_eq, hbytes, Nat.ofDigits_digits]

theorem setBytes_zeros (k : Nat) (b : Bytes) : setBytes (List.replicate k 0 ++ b) = setBytes b := by
  induction k with
  | zero => rfl
  | succ k ih => simpa [setBytes, List.replicate_succ] using ih

theorem bigBytes_ne_nil {n : Nat} (h : n ≠ 0) : bigBytes n ≠ [] := by
  simpa [bigBytes, Nat.digits_eq_nil_iff_eq_zero] using h

theorem bigBytes_length_le {n k : Nat} (h : n < 256 ^ k) : (bigBytes n).length ≤ k := by
  rw [bigBytes, List.length_map, List.length_reverse]
  exact (Nat.digits_length_le_iff (by decide) n).mpr h

end ElchiShield.Go
