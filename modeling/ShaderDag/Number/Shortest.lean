import ShaderDag.Number.Decimal

/-!
# Shortest decimals

A finite magnitude is written with the fewest digits that still round back to it.  The numbers that
round to a magnitude form an interval; the coarsest decimal grid `10 ^ e` with a point inside it gives
the digits, and of the points on that grid the nearest to the magnitude is taken.

* `BinaryFormat.interval` — the numbers that round to a magnitude;
* `BinaryFormat.shortest` — the shortest decimal in that interval.
-/

namespace ShaderDag

/-- The numbers that round to a magnitude: all numbers between `low / scale` and `high / scale`, with
the two ends if the interval is `closed`. -/
structure RoundingInterval where
  low : Nat
  value : Nat
  high : Nat
  scale : Nat
  closed : Bool
deriving DecidableEq, Repr

/-- Which of two grid points to take when a value lies half way between them. -/
inductive TieRule where
  | up
  | toEven
deriving DecidableEq, Repr

namespace RoundingInterval

/-- Whether the number `point / scale` lies in the interval, after both have been multiplied by
`factor`. -/
def contains (i : RoundingInterval) (factor point : Nat) : Bool :=
  if i.closed then i.low * factor ≤ point && point ≤ i.high * factor
  else i.low * factor < point && point < i.high * factor

/-- The multiple of `10 ^ exponent` in the interval that is nearest to its value, as a count of such
powers.  If any multiple lies in the interval, so does one of the two next to the value. -/
def nearest? (i : RoundingInterval) (tie : TieRule) (exponent : Int) : Option Nat :=
  let factor := tenTo (-exponent).toNat
  let step := i.scale * tenTo exponent.toNat
  let below := i.value * factor / step
  let twice := 2 * (i.value * factor % step)
  let preferBelow := twice < step ∨ (twice = step ∧ tie = .toEven ∧ below % 2 = 0)
  let candidates := if preferBelow then [below, below + 1] else [below + 1, below]
  candidates.find? fun n => i.contains factor (n * step)

/-- The first grid with a point in the interval, from the grid `10 ^ exponent` on towards finer ones. -/
def coarsest? (i : RoundingInterval) (tie : TieRule) :
    (grids : Nat) → (exponent : Int) → Option Decimal
  | 0, _ => none
  | grids + 1, exponent =>
    match i.nearest? tie exponent with
    | some n => some ⟨n, exponent⟩
    | none => i.coarsest? tie grids (exponent - 1)

end RoundingInterval

namespace BinaryFormat

variable (f : BinaryFormat)

/-- The numbers that round to a finite magnitude.  The gap below a power of two is half of the gap
above it; the ends belong to the interval exactly when the significand is even. -/
def interval (magnitude : Nat) : RoundingInterval :=
  let m := f.significand magnitude
  let quarter := twoTo (f.shift magnitude)
  let gapBelow := if m = f.fractionRange ∧ 0 < f.shift magnitude then quarter else 2 * quarter
  { low := 4 * m * quarter - gapBelow
    value := 4 * m * quarter
    high := 4 * m * quarter + 2 * quarter
    scale := 4 * twoTo f.unitExponent
    closed := m % 2 == 0 }

/-- The shortest decimal that rounds to a finite magnitude.  No grid coarser than the first one tried
has a positive point in the interval, and the last one tried holds the magnitude itself. -/
def shortest (tie : TieRule) (magnitude : Nat) : Decimal :=
  if magnitude = 0 then ⟨0, 0⟩
  else
    let i := f.interval magnitude
    let top := (digitsOf (i.high / i.scale)).length
    (i.coarsest? tie (top + f.unitExponent + 1) top).getD
      ⟨f.units magnitude * Nat.pow 5 f.unitExponent, -f.unitExponent⟩

end BinaryFormat

end ShaderDag
