import Mathlib.Algebra.Group.Nat.Defs

/-! # The NIST curves

What the shield uses of `crypto/elliptic`: the test for a point of a curve, as `ECDH` makes it of a
public key. -/
namespace ElchiShield.Go

inductive Curve where
  | p256
  | p384
  | p521
  deriving DecidableEq, Repr

namespace Curve

/-- The order of the field. -/
def p : Curve → Nat
  | .p256 => 2 ^ 256 - 2 ^ 224 + 2 ^ 192 + 2 ^ 96 - 1
  | .p384 => 2 ^ 384 - 2 ^ 128 - 2 ^ 96 + 2 ^ 32 - 1
  | .p521 => 2 ^ 521 - 1

/-- The constant of the curve equation. -/
def b : Curve → Nat
  | .p256 => 0x5ac635d8aa3a93e7b3ebbd55769886bc651d06b0cc53b0f63bce3c3e27d2604b
  | .p384 =>
    0xb3312fa7e23ee7e4988e056be3f82d19181d9c6efe8141120314088f5013875ac656398d8a2ed19d2a85c8edd3ec2aef
  | .p521 =>
    0x0051953eb9618e1c9a1f929a21a0b68540eea2da725b99b315f3b8b489918ef109e156193951ec7e937b1652c0bd3bb1bf073573df883d2c34f1ef451fd46b503f00

/-- `IsOnCurve`: `y² = x³ - 3x + b` in the field, for coordinates that are reduced. -/
def isOnCurve (c : Curve) (x y : Nat) : Bool :=
  x < c.p && y < c.p && (y ^ 2 + 3 * x) % c.p == (x ^ 3 + c.b) % c.p

/-- The width of a coordinate in bytes. -/
def width : Curve → Nat
  | .p256 => 32
  | .p384 => 48
  | .p521 => 66

/-- The generator that comes with the curve. -/
def generator : Curve → Nat × Nat
  | .p256 =>
    (0x6b17d1f2e12c4247f8bce6e563a440f277037d812deb33a0f4a13945d898c296,
      0x4fe342e2fe1a7f9b8ee7eb4a7c0f9e162bce33576b315ececbb6406837bf51f5)
  | .p384 =>
    (0xaa87ca22be8b05378eb1c71ef320ad746e1d3b628ba79b9859f741e082542a385502f25dbf55296c3a545e3872760ab7,
      0x3617de4a96262c6f5d9e98bf9292dc29f8f41dbd289a147ce9da3113b5f0b8c00a60b1ce1d7e819d7a431d7c90ea0e5f)
  | .p521 =>
    (0x00c6858e06b70404e9cd9e3ecb662395b4429c648139053fb521f828af606b4d3dbaa14b5e77efe75928fe1dc127a2ffa8de3348b3c1856a429bf97e7e31c2e5bd66,
      0x011839296a789a3bc0045c8a5fb42c7d1bd998f54449579b446817afbd17273e662c97ee72995ef42640c550b9013fad0761353c7086a272c24088be94769fd16650)

theorem generator_isOnCurve (c : Curve) : c.isOnCurve c.generator.1 c.generator.2 = true := by
  cases c <;> decide +kernel

end Curve

end ElchiShield.Go
