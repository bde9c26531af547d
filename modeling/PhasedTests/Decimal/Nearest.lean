import PhasedTests.Decimal.Binary

/-!
# Nearest binary floats

The double nearest to a decimal, by exact division: the quotient is cut to 53 binary places, a half
goes to the even neighbour, and what lies beyond the largest double becomes infinite.
-/

namespace PhasedTests.Decimal

/-- The quotient rounded to the nearest whole number, halves to the even one. -/
def roundHalfEven (numerator denominator : Nat) : Nat :=
  let quotient := numerator / denominator
  let twice := 2 * (numerator % denominator)
  if twice < denominator then quotient
  else if denominator < twice then quotient + 1
  else if quotient % 2 = 0 then quotient
  else quotient + 1

/-- The bits of the double nearest to `numerator / denominator`, both positive. A mantissa that
rounds up to the next power of two carries into the exponent field. -/
def nearestBits (numerator denominator : Nat) : Nat :=
  let scaled (exponent : Int) : Nat × Nat :=
    (numerator * powerOfTwo (-exponent), denominator * powerOfTwo exponent)
  let guess : Int := max ((numerator.log2 : Int) - denominator.log2 - 53) (-1074)
  let exponent : Int :=
    if (scaled guess).1 < 2 * implicitBit * (scaled guess).2 then guess else guess + 1
  let mantissa := roundHalfEven (scaled exponent).1 (scaled exponent).2
  min (mantissa + (exponent + 1074).toNat * implicitBit) infinityBits

/-- The bits of the double nearest to `coefficient * 10 ^ exponent`. Values from `10 ^ 310` up and
values below `10 ^ (-330)` are not multiplied out: they are infinite and zero. -/
def magnitudeBits (coefficient : Nat) (exponent : Int) : Nat :=
  let size : Int := exponent + (Nat.toDigits 10 coefficient).length
  if coefficient = 0 ∨ size < -330 then 0
  else if 310 < size then infinityBits
  else nearestBits (coefficient * powerOfTen exponent) (powerOfTen (-exponent))

/-- The double nearest to `coefficient * 10 ^ exponent`, or to its negation. -/
def toFloat (negative : Bool) (coefficient : Nat) (exponent : Int) : Float :=
  Float.ofBits (UInt64.ofNat (magnitudeBits coefficient exponent + if negative then signBit else 0))

end PhasedTests.Decimal
