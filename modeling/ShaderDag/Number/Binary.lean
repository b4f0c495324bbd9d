/-!
# Binary floating-point formats

A finite magnitude of a binary format is a whole number of *units*, where a unit is the smallest
positive magnitude `2 ^ -unitExponent`.  Magnitudes are handled through their bit patterns: read as
numbers, the patterns are ordered like the values that they stand for.

* `BinaryFormat` — the widths of the fraction and of the exponent, with `single` and `double`;
* `BinaryFormat.units` — the value of a finite magnitude, in units;
* `BinaryFormat.round` — the magnitude nearest to a quotient, ties to even, overflow to infinity.
-/

namespace ShaderDag

/-- A power of two. -/
def twoTo (n : Nat) : Nat := Nat.pow 2 n

/-- The quotient `num / den` rounded to the nearest whole number, halves to the even one. -/
def roundHalfEven (num den : Nat) : Nat :=
  let quotient := num / den
  let twice := 2 * (num % den)
  if twice < den ∨ (twice = den ∧ quotient % 2 = 0) then quotient else quotient + 1

/-- A binary floating-point format, given by the widths of its two fields. -/
structure BinaryFormat where
  fractionBits : Nat
  exponentBits : Nat
deriving DecidableEq, Repr

namespace BinaryFormat

/-- The 32-bit format. -/
def single : BinaryFormat := ⟨23, 8⟩

/-- The 64-bit format. -/
def double : BinaryFormat := ⟨52, 11⟩

variable (f : BinaryFormat)

/-- One more than the largest fraction field. -/
def fractionRange : Nat := twoTo f.fractionBits

/-- The smallest positive magnitude is `2 ^ -unitExponent`. -/
def unitExponent : Nat := twoTo (f.exponentBits - 1) - 2 + f.fractionBits

/-- The magnitude of infinity; larger magnitudes are not numbers. -/
def infinity : Nat := (twoTo f.exponentBits - 1) * f.fractionRange

/-- The sign bit, which stands above every magnitude. -/
def signBit : Nat := twoTo (f.exponentBits + f.fractionBits)

/-- The whole-number significand of a finite magnitude. -/
def significand (magnitude : Nat) : Nat :=
  if magnitude < f.fractionRange then magnitude else f.fractionRange + magnitude % f.fractionRange

/-- The number of binary places that the significand is shifted to the left. -/
def shift (magnitude : Nat) : Nat := magnitude / f.fractionRange - 1

/-- The value of a finite magnitude, counted in units. -/
def units (magnitude : Nat) : Nat := f.significand magnitude * twoTo (f.shift magnitude)

/-- The magnitude nearest to `num / den`; ties go to the even significand, and values past the range
go to infinity. -/
def round (num den : Nat) : Nat :=
  let scaled := num * twoTo f.unitExponent
  let places := (scaled / den).log2 - f.fractionBits
  min (places * f.fractionRange + roundHalfEven scaled (den * twoTo places)) f.infinity

/-- The magnitude of another format nearest to a magnitude of this one; infinity stays infinity. -/
def convert (target : BinaryFormat) (magnitude : Nat) : Nat :=
  if magnitude < f.infinity then target.round (f.units magnitude) (twoTo f.unitExponent)
  else target.infinity

end BinaryFormat

end ShaderDag
