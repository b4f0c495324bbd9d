import ShaderDag.Number.Shortest

/-!
# Constants

The two number formats of the compiler: numbers in expression text are read in the 64-bit format and
become constants of the 32-bit format.

* `Constant` — the bit pattern of a 32-bit number, which is how constants are compared;
* `Constant.text` — a constant in shader source;
* `Numeral` — a number of expression text, `Numeral.text` and `Numeral.constant`.
-/

namespace ShaderDag

/-! ### Numbers of expression text -/

/-- The bit pattern of a non-negative number of the 64-bit format. -/
structure Numeral where
  bits : UInt64
deriving DecidableEq, Repr, Inhabited

/-- The bit pattern of a number of the 32-bit format.  Constants are equal when their patterns are, so
the two zeros differ and every pattern of a non-number equals itself. -/
structure Constant where
  bits : UInt32
deriving DecidableEq, Repr, Inhabited

namespace Numeral

/-- The 64-bit number nearest to a decimal. -/
def ofDecimal (d : Decimal) : Numeral := ⟨(d.magnitude .double).toUInt64⟩

/-- The shortest decimal that reads back as the number, written without an exponent. -/
def text (n : Numeral) : String :=
  if n.bits.toNat < BinaryFormat.double.infinity then
    String.ofList (BinaryFormat.double.shortest .up n.bits.toNat).positional
  else "inf"

/-- The 32-bit number nearest to the numeral, or to its negation. -/
def constant (negative : Bool) (n : Numeral) : Constant :=
  let magnitude := BinaryFormat.double.convert .single n.bits.toNat
  ⟨(if negative then BinaryFormat.single.signBit + magnitude else magnitude).toUInt32⟩

end Numeral

/-! ### Constants of shader source -/

namespace Constant

/-- The constant `-1`. -/
def minusOne : Constant := ⟨0xbf800000⟩

/-- Whether the sign bit is set. -/
def isNegative (c : Constant) : Bool := BinaryFormat.single.signBit ≤ c.bits.toNat

/-- The bit pattern without the sign. -/
def magnitude (c : Constant) : Nat := c.bits.toNat % BinaryFormat.single.signBit

/-- The decimal of a finite magnitude, always with a decimal point. -/
def decimalText (magnitude : Nat) : List Char :=
  let digits := (BinaryFormat.single.shortest .up magnitude).positional
  if digits.contains '.' then digits else digits ++ ['.', '0']

/-- The constant in shader source: a decimal with a point, or a division by zero for the values that
have none. -/
def text (c : Constant) : String :=
  let inf := BinaryFormat.single.infinity
  if inf < c.magnitude then "(0.0 / 0.0)"
  else if c.magnitude = inf then if c.isNegative then "(-1.0 / 0.0)" else "(1.0 / 0.0)"
  else String.ofList ((if c.isNegative then ['-'] else []) ++ decimalText c.magnitude)

end Constant

end ShaderDag
