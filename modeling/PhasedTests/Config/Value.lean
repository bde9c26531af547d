import PhasedTests.Decimal.Positional
import PhasedTests.Text.Numeral

/-!
# Configuration values

What a configuration file or an override can hold, and the readings of a value as a truth value, a
whole number or a text. The readings are generous: a number can be a truth value, a word such as
`on` can be either, and every scalar has a text.
-/

namespace PhasedTests.Config

open Text

/-- A configuration value. Tables keep their keys in the order they were first set. -/
inductive Value where
  | nil
  | bool (value : Bool)
  | int (value : Int)
  | float (value : Float)
  | text (value : String)
  | array (items : List Value)
  | table (entries : List (String × Value))

/-- A key or word in lower case. The Kelvin sign is the one character outside ASCII whose lower case
is an ASCII letter; all other characters beyond ASCII are left alone, since no known key or word
holds one. -/
def lowerCase (text : String) : String :=
  text.map fun c => if c = '\u212A' then 'k' else c.toLower

/-- The text of a float: positional digits, without a point when it is whole. -/
def floatText (x : Float) : String :=
  if x.isNaN then "NaN"
  else if x.isInf then if Decimal.isNegative x then "-inf" else "inf"
  else String.ofList (Decimal.finiteChars x)

/-- The whole number nearest to a float, halves away from zero, cut to the range of 64-bit words.
What is no number counts as zero. -/
def roundedWord (x : Float) : Nat :=
  if x.isNaN || Decimal.isNegative x then 0
  else if x.isInf then UInt64.size - 1
  else
    let (mantissa, exponent) := Decimal.binaryParts x
    let divisor := Decimal.powerOfTwo (-exponent)
    min ((2 * mantissa * Decimal.powerOfTwo exponent + divisor) / (2 * divisor)) (UInt64.size - 1)

/-- The whole number of a numeral, with or without a plus sign. -/
def wordOfText? (text : String) : Option Nat :=
  match text.toList with
  | '+' :: digits => Numeral.toWord? digits
  | digits => Numeral.toWord? digits

namespace Value

/-- The value as a truth value. -/
def toBool? : Value → Option Bool
  | bool value => some value
  | int value => some (value != 0)
  | float value => some (value != 0.0)
  | text value =>
    let word := lowerCase value
    if ["true", "on", "yes", "1"].contains word then some true
    else if ["false", "off", "no", "0"].contains word then some false
    else none
  | _ => none

/-- The value as a whole number below `2 ^ 64`. -/
def toWord? : Value → Option Nat
  | bool value => some value.toNat
  | int value => if value < 0 then none else some value.toNat
  | float value => some (roundedWord value)
  | text value =>
    let word := lowerCase value
    if ["true", "on", "yes"].contains word then some 1
    else if ["false", "off", "no"].contains word then some 0
    else wordOfText? value
  | _ => none

/-- The value as a text. -/
def toText? : Value → Option String
  | bool value => some (if value then "true" else "false")
  | int value => some (String.ofList (Numeral.ofInt value))
  | float value => some (floatText value)
  | text value => some value
  | _ => none

/-- The entries of a table; any other value has none. -/
def entries : Value → List (String × Value)
  | table entries => entries
  | _ => []

/-- The items of an array; any other value has none. -/
def items : Value → List Value
  | array items => items
  | _ => []

/-- The entries in which `key` holds what `change` makes of its old value. -/
def updateEntry (key : String) (change : Option Value → Value) :
    List (String × Value) → List (String × Value)
  | [] => [(key, change none)]
  | (other, value) :: rest =>
    if other == key then (key, change (some value)) :: rest
    else (other, value) :: updateEntry key change rest

mutual

/-- Lays a value over an old one. A table is laid over entry by entry and leaves the old value alone
where it has none; any other value takes the old one's place. -/
def laidOver (old : Option Value) : Value → Value
  | table entries => laidOverAll (old.getD (table [])) entries
  | value => value

/-- Lays entries over a value, which becomes a table if there are any. -/
def laidOverAll (old : Value) : List (String × Value) → Value
  | [] => old
  | (key, value) :: rest =>
    laidOverAll (table (updateEntry key (fun previous => laidOver previous value) old.entries)) rest

end

mutual

/-- The value with all keys of its tables in lower case. Tables inside arrays keep their keys. -/
def lowerKeys : Value → Value
  | table entries => table (lowerEntries entries)
  | value => value

/-- The entries with all keys in lower case. -/
def lowerEntries : List (String × Value) → List (String × Value)
  | [] => []
  | (key, value) :: rest => (lowerCase key, lowerKeys value) :: lowerEntries rest

end

end Value

end PhasedTests.Config
