import PhasedTests.Decimal.Shortest
import PhasedTests.Text.Numeral

/-!
# Positional text of floats

Finite floats are written in positional notation whatever their size, with the fewest digits that
read back. Zero keeps its sign.
-/

namespace PhasedTests.Decimal

open Text (Numeral.toDigits)

/-- The decimal in positional notation, without a point when it is whole. -/
def Scientific.positional (d : Scientific) : List Char :=
  if 0 ≤ d.exponent then
    Numeral.toDigits d.coefficient ++ List.replicate d.exponent.toNat '0'
  else
    let places := (-d.exponent).toNat
    let digits := Numeral.toDigits d.coefficient
    let padded := List.replicate (places + 1 - digits.length) '0' ++ digits
    padded.take (padded.length - places) ++ '.' :: padded.drop (padded.length - places)

/-- The shortest positional text of a finite double; whole values have no point. -/
def finiteChars (x : Float) : List Char :=
  let (mantissa, exponent) := binaryParts x
  let digits :=
    if mantissa = 0 then ['0'] else (Rounding.ofBinary mantissa exponent).shortest.positional
  if isNegative x then '-' :: digits else digits

end PhasedTests.Decimal
