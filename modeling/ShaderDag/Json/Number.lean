import ShaderDag.Number.Shortest
import ShaderDag.Text.Lexer

/-!
# Numbers of JSON text

A number without a point and without an exponent is an integer as long as its digits fit into 64 bits;
every other number is a 64-bit floating-point value.  Its digits are collected while they fit into 64
bits, and the collected number is then multiplied or divided by a power of ten, with a rounding at each
step.

* `Json.Real` — a finite 64-bit value, with its text in messages;
* `Json.Numeral` — an integer or a real;
* `Json.scanNumber` — the number at the start of a text.
-/

namespace ShaderDag

namespace BinaryFormat

variable (f : BinaryFormat)

/-- The rounded product of two finite magnitudes. -/
def product (a b : Nat) : Nat := f.round (f.units a * f.units b) (twoTo (2 * f.unitExponent))

/-- The rounded quotient of two finite magnitudes. -/
def quotient (a b : Nat) : Nat := f.round (f.units a) (f.units b)

end BinaryFormat

namespace Json

/-- A finite value of the 64-bit format. -/
structure Real where
  negative : Bool
  magnitude : Nat
deriving DecidableEq, Repr

/-! ### Text of reals -/

/-- The range of decimal point positions that is written without an exponent. -/
def positionalRange : Int × Int := (-4, 16)

/-- An exponent with its sign, which is written in any case. -/
def exponentText : Int → String
  | .ofNat e => "e+" ++ toString e
  | .negSucc e => "e-" ++ toString (e + 1)

/-- The shortest decimal of a magnitude: without an exponent, and with a point in any case, if the
point falls into the positional range; in scientific form otherwise. -/
def magnitudeText (magnitude : Nat) : String :=
  let d := BinaryFormat.double.shortest .toEven magnitude
  let digits := digitsOf d.significand
  let point : Int := digits.length + d.exponent
  if magnitude = 0 ∨ (positionalRange.1 ≤ point ∧ point ≤ positionalRange.2) then
    let text := d.positional
    String.ofList (if text.contains '.' then text else text ++ ['.', '0'])
  else
    let mantissa :=
      match digits with
      | first :: second :: more => first :: '.' :: second :: more
      | short => short
    String.ofList mantissa ++ exponentText (point - 1)

/-- The text of a real. -/
def Real.text (r : Real) : String :=
  (if r.negative then "-" else "") ++ magnitudeText r.magnitude

/-! ### Values of numbers -/

/-- A number of JSON text. -/
inductive Numeral where
  | integer (value : Int)
  | real (value : Real)
deriving DecidableEq, Repr

/-- The digits that still fit into 64 bits when they are appended to a number, and those that are left
over. -/
def collect (n : Nat) : List Char → Nat × List Char
  | [] => (n, [])
  | d :: ds =>
    let longer := 10 * n + numberOf [d]
    if longer < twoTo 64 then collect longer ds else (n, d :: ds)

/-- The magnitude of a power of ten that the 64-bit format can hold. -/
def powerOfTen (exponent : Nat) : Nat := (Decimal.mk 1 exponent).magnitude .double

/-- The largest power of ten that the 64-bit format can hold. -/
def largestPower : Nat := 308

/-- A magnitude divided by a power of ten, in steps of the largest power. -/
def scaleDown (magnitude exponent : Nat) : Nat :=
  if exponent ≤ largestPower then BinaryFormat.double.quotient magnitude (powerOfTen exponent)
  else if magnitude = 0 then 0
  else scaleDown (BinaryFormat.double.quotient magnitude (powerOfTen largestPower))
    (exponent - largestPower)
termination_by exponent
decreasing_by
  simp only [largestPower] at *
  omega

/-- The magnitude of `n * 10 ^ exponent`, unless it overflows. -/
def scale? (n : Nat) (exponent : Int) : Option Nat :=
  let magnitude := BinaryFormat.double.round n 1
  match exponent with
  | .negSucc e => some (scaleDown magnitude (e + 1))
  | .ofNat e =>
    if e ≤ largestPower then
      let product := BinaryFormat.double.product magnitude (powerOfTen e)
      if product < BinaryFormat.double.infinity then some product else none
    else if n = 0 then some 0
    else none

/-- Exponents from here on are not read. -/
def exponentLimit : Nat := twoTo 31

/-- The magnitude of a number with digits `whole`, then `fraction` behind the point, and an exponent. -/
def realMagnitude? (whole fraction : List Char) (exponent : Bool × Nat) : Option Nat :=
  let (n, dropped) := collect 0 whole
  let (n, ignored) := collect n fraction
  let places : Int := (dropped.length : Int) - ((fraction.length : Int) - ignored.length)
  let (negative, power) := exponent
  if exponentLimit ≤ power then if n = 0 ∨ negative then some 0 else none
  else scale? n (places + if negative then -(power : Int) else power)

/-- The value of a number; a negative integer has to fit into 64 bits with its sign, and a negative
zero is a real. -/
def value? (negative : Bool) (whole : List Char) (fraction : Option (List Char))
    (exponent : Option (Bool × Nat)) : Option Numeral :=
  let (n, dropped) := collect 0 whole
  if dropped.isEmpty ∧ fraction.isNone ∧ exponent.isNone ∧
      (negative = false ∨ (0 < n ∧ n ≤ twoTo 63)) then
    some (.integer (if negative then -(n : Int) else n))
  else
    (realMagnitude? whole (fraction.getD []) (exponent.getD (false, 0))).map fun magnitude =>
      .real ⟨negative, magnitude⟩

/-! ### Numbers in text -/

/-- Zero, or digits that do not start with a zero. -/
def wholeSpan? (cs : List Char) : Option (List Char × List Char) :=
  let digits := cs.takeWhile isDigit
  match digits with
  | [] => none
  | '0' :: _ :: _ => none
  | _ => some (digits, cs.dropWhile isDigit)

/-- The digits behind a point, if there is one; a point needs at least one digit. -/
def fractionSpan? : List Char → Option (Option (List Char) × List Char)
  | '.' :: cs =>
    let digits := cs.takeWhile isDigit
    if digits.isEmpty then none else some (some digits, cs.dropWhile isDigit)
  | cs => some (none, cs)

/-- The sign and the digits behind an exponent mark, if there is one; a mark needs at least one digit. -/
def exponentSpan? : List Char → Option (Option (Bool × Nat) × List Char)
  | [] => some (none, [])
  | mark :: cs =>
    if mark == 'e' || mark == 'E' then
      let (sign, ds) := NumeralSpan.signSpan cs
      let digits := ds.takeWhile isDigit
      if digits.isEmpty then none
      else some (some (sign == some '-', numberOf digits), ds.dropWhile isDigit)
    else some (none, mark :: cs)

/-- The number at the start of a text that starts with a digit or a minus sign, and the remaining
text. -/
def scanNumber? (cs : List Char) : Option (Numeral × List Char) := do
  let (negative, cs) :=
    match cs with
    | '-' :: ds => (true, ds)
    | ds => (false, ds)
  let (whole, cs) ← wholeSpan? cs
  let (fraction, cs) ← fractionSpan? cs
  let (exponent, cs) ← exponentSpan? cs
  return (← value? negative whole fraction exponent, cs)

end Json

end ShaderDag
