import PhasedTests.Decimal.Binary

/-!
# Shortest decimals

A finite binary float stands for every real number that rounds to it. Among the decimals in that
interval, the shortest is the one on the coarsest power-of-ten grid; of two such neighbours the
nearer one is taken, and the larger one when they are equally near. All arithmetic is exact.
-/

namespace PhasedTests.Decimal

/-- The decimal `coefficient * 10 ^ exponent`. -/
structure Scientific where
  coefficient : Nat
  exponent : Int
  deriving DecidableEq, Repr

/-- A positive value and the ends of the interval of reals that round to it, as three numerators
over one denominator. The ends belong to the interval if `closed` holds. -/
structure Rounding where
  low : Nat
  value : Nat
  high : Nat
  denominator : Nat
  closed : Bool

namespace Rounding

/-- The interval of `mantissa * 2 ^ exponent`. It reaches halfway to the two neighbouring floats;
the lower neighbour is nearer when the mantissa is a power of two. -/
def ofBinary (mantissa : Nat) (exponent : Int) : Rounding :=
  let below := if mantissa = implicitBit then 1 else 2
  let scale := powerOfTwo (exponent - 2)
  { low := (4 * mantissa - below) * scale
    value := 4 * mantissa * scale
    high := (4 * mantissa + 2) * scale
    denominator := powerOfTwo (2 - exponent)
    closed := mantissa % 2 == 0 }

/-- Whether `coefficient * unit / denominator` lies in the interval `low` to `high`. -/
def contains (closed : Bool) (low high point : Nat) : Bool :=
  if closed then low ≤ point && point ≤ high else low < point && point < high

/-- The point of the grid of multiples of `10 ^ exponent` that stands for the value, if one of the
value's two neighbours on that grid lies in the interval. -/
def onGrid (r : Rounding) (exponent : Int) : Option Scientific :=
  let finer := powerOfTen (-exponent)
  let unit := r.denominator * powerOfTen exponent
  let low := r.low * finer
  let value := r.value * finer
  let high := r.high * finer
  let below := value / unit
  let above := below + 1
  let belowFits := contains r.closed low high (below * unit)
  let aboveFits := contains r.closed low high (above * unit)
  if belowFits && aboveFits then
    if value - below * unit < above * unit - value then some ⟨below, exponent⟩
    else some ⟨above, exponent⟩
  else if belowFits then some ⟨below, exponent⟩
  else if aboveFits then some ⟨above, exponent⟩
  else none

/-- A power of ten above the value: `30103 / 100000` exceeds the logarithm of two by little. -/
def topExponent (r : Rounding) : Int :=
  ((r.value.log2 - r.denominator.log2 : Int) + 1) * 30103 / 100000 + 2

/-- The point on the coarsest grid that has one. Seventeen digits always suffice. -/
def shortest (r : Rounding) : Scientific :=
  ((List.range 21).findSome? fun step : Nat => r.onGrid (r.topExponent - (step : Int))).getD ⟨0, 0⟩

end Rounding

end PhasedTests.Decimal
