import ElchiShield.Go.Strings
import Mathlib.Data.Rat.Defs
import Mathlib.Algebra.Order.Ring.Unbundled.Rat

/-! # What the shield calls from the Go library

Parsers and decoders of the Go library enter as the fields of one class. The results
hold for every behaviour of these functions. -/
namespace ElchiShield.Go

/-- What a decompressing reader yields: its bytes, and whether it ends in an error. -/
structure Reader where
  output : Bytes
  failed : Bool
  deriving DecidableEq, Repr

class Library extends Unicode where
  /-- `regexp.Compile`, with `MatchString` of what it returns. -/
  regexp : Bytes → Except Bytes (Bytes → Bool)
  /-- `url.Parse`, as the scheme and the host name. -/
  parseURL : Bytes → Except Bytes (Bytes × Bytes)
  /-- `mime.ParseMediaType`, without the parameters. -/
  parseMediaType : Bytes → Option Bytes
  /-- `json.Valid`. -/
  jsonValid : Bytes → Bool
  /-- `gzip.NewReader`. -/
  gzip : Bytes → Option Reader
  /-- `zlib.NewReader`. -/
  zlib : Bytes → Option Reader
  /-- `flate.NewReader`. -/
  flate : Bytes → Reader

/-- A library that parses and decodes nothing. -/
@[reducible] def Library.nothing : Library where
  toUnicode := Unicode.asciiOnly
  regexp _ := .error []
  parseURL _ := .error []
  parseMediaType _ := none
  jsonValid _ := false
  gzip _ := none
  zlib _ := none
  flate _ := ⟨[], true⟩

/-- A `float64`, with its finite values exact. -/
inductive Float64 where
  | nan
  | inf (negative : Bool)
  | fin (value : Rat)
  deriving DecidableEq

/-- An argument of a format string. -/
inductive Arg where
  | str (s : Bytes)
  | int (n : Int)
  | float (x : Float64)
  deriving DecidableEq

/-- `fmt.Errorf` and `errors.New`: a format with its arguments. -/
structure Err where
  format : String
  args : List Arg := []
  deriving DecidableEq

/-- `hex.DecodeString` succeeds. -/
def isHex (s : Bytes) : Bool :=
  s.length % 2 = 0 && s.all fun b =>
    (48 ≤ b && b ≤ 57) || (97 ≤ b && b ≤ 102) || (65 ≤ b && b ≤ 70)

def isDigit (b : UInt8) : Bool := 48 ≤ b && b ≤ 57

end ElchiShield.Go
