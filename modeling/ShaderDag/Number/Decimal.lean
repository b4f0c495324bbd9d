import ShaderDag.Number.Binary

/-!
# Decimal numbers

A decimal number is a whole significand times a power of ten.

* `Decimal` — significand and exponent;
* `Decimal.magnitude` — the nearest magnitude of a binary format;
* `Decimal.positional` — the digits with a decimal point where it belongs, never with an exponent.
-/

namespace ShaderDag

/-- The number `significand * 10 ^ exponent`. -/
structure Decimal where
  significand : Nat
  exponent : Int
deriving DecidableEq, Repr

/-- A power of ten. -/
def tenTo (n : Nat) : Nat := Nat.pow 10 n

/-- The decimal digits of a number, without leading zeros. -/
def digitsOf (n : Nat) : List Char := Nat.toDigits 10 n

/-- The number that a list of decimal digits spells. -/
def numberOf (digits : List Char) : Nat := Nat.ofDigitChars 10 digits 0

namespace Decimal

/-- Powers of ten from here on lie past the range of the formats in use, and their inverses lie below
half of the smallest positive magnitude. -/
def exponentCap : Nat := 400

/-- The magnitude of a format nearest to a decimal number.  Exponents past the cap are decided without
raising ten to them: `10 ^ exponentCap` overflows, and a number below `10 ^ -exponentCap` is zero. -/
def magnitude (f : BinaryFormat) (d : Decimal) : Nat :=
  if d.significand = 0 then 0
  else if d.exponent > exponentCap then f.infinity
  else if d.exponent + d.significand.log2 + 1 < -exponentCap then 0
  else f.round (d.significand * tenTo d.exponent.toNat) (tenTo (-d.exponent).toNat)

/-- The number written out with its point in place: zeros follow the digits when the exponent is
positive, and no point is written behind a whole number. -/
def positional (d : Decimal) : List Char :=
  let digits := digitsOf d.significand
  match d.exponent with
  | .ofNat zeros => if d.significand = 0 then digits else digits ++ List.replicate zeros '0'
  | .negSucc places =>
    let padded := List.replicate (places + 2 - digits.length) '0' ++ digits
    let whole := padded.length - (places + 1)
    padded.take whole ++ '.' :: padded.drop whole

end Decimal

end ShaderDag
