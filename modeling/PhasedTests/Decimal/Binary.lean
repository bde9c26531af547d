/-!
# Binary floats

A double has a sign bit, eleven bits of exponent and fifty-two bits of mantissa. Its magnitude is a
whole number times a power of two.
-/

namespace PhasedTests.Decimal

/-- The bit of the sign. -/
def signBit : Nat :=
  0x8000000000000000

/-- The bit above the mantissa, which normal doubles have without storing it. -/
def implicitBit : Nat :=
  0x10000000000000

/-- The bits of the infinite double. -/
def infinityBits : Nat :=
  0x7FF0000000000000

/-- The sign of a double. -/
def isNegative (x : Float) : Bool :=
  signBit ≤ x.toBits.toNat

/-- The mantissa and the exponent of a finite double's magnitude: `mantissa * 2 ^ exponent`. -/
def binaryParts (x : Float) : Nat × Int :=
  let magnitude : Nat := x.toBits.toNat % signBit
  let field : Nat := magnitude / implicitBit
  if field = 0 then (magnitude, -1074)
  else (magnitude % implicitBit + implicitBit, Int.ofNat field - 1075)

/-- A power of two; negative exponents count as zero. -/
def powerOfTwo (exponent : Int) : Nat :=
  Nat.pow 2 exponent.toNat

/-- A power of ten; negative exponents count as zero. -/
def powerOfTen (exponent : Int) : Nat :=
  Nat.pow 10 exponent.toNat

end PhasedTests.Decimal
