/-!
# Decimal numerals

Reading and writing of whole numbers in base ten. Only the ten ASCII digits count as digits here.
-/

namespace PhasedTests.Text.Numeral

/-- An ASCII digit. -/
def isDigit (c : Char) : Bool :=
  '0' ≤ c && c ≤ '9'

/-- The value of one digit. -/
def digitValue (c : Char) : Nat :=
  c.toNat - '0'.toNat

/-- The number that a run of digits stands for; no digits stand for zero. -/
def ofDigits (digits : List Char) : Nat :=
  digits.foldl (fun value c => 10 * value + digitValue c) 0

/-- The digits of a number, without leading zeros. -/
def toDigits (value : Nat) : List Char :=
  Nat.toDigits 10 value

/-- The written form of a whole number: a minus sign if it is negative, then its digits. -/
def ofInt (value : Int) : List Char :=
  if value < 0 then '-' :: toDigits value.natAbs else toDigits value.natAbs

/-- The 64-bit signed integer of a sign and a run of digits, if it is in range. -/
def toInt64? (negative : Bool) (digits : List Char) : Option Int64 :=
  let value : Int := if negative then -(ofDigits digits : Int) else ofDigits digits
  if Int64.minValue.toInt ≤ value ∧ value ≤ Int64.maxValue.toInt then some (Int64.ofInt value)
  else none

/-- The number of a non-empty run of digits below `2 ^ 64`, and nothing else. -/
def toWord? (digits : List Char) : Option Nat :=
  if digits ≠ [] ∧ digits.all isDigit ∧ ofDigits digits < UInt64.size then some (ofDigits digits)
  else none

end PhasedTests.Text.Numeral
