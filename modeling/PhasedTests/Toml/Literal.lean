import PhasedTests.Config.Value
import PhasedTests.Text.Quoted

/-!
# TOML literals

The values that are not made of other values. A date or a time is kept as its normal text.
-/

namespace PhasedTests.Toml

open Config (Value)

/-- A value that is not made of other values. -/
inductive Literal where
  | text (value : String)
  | int (value : Int)
  | float (value : Float)
  | bool (value : Bool)
  | date (text : String)

namespace Literal

/-- How a message calls the type of a literal. -/
def typeName : Literal → String
  | text _ => "string"
  | int _ => "integer"
  | float _ => "float"
  | bool _ => "boolean"
  | date _ => "datetime"

/-- How a message calls a literal that should be something else. -/
def description : Literal → String
  | text value => "string " ++ String.ofList (Text.Quoted.encode value.toList)
  | int value => "integer `" ++ String.ofList (Text.Numeral.ofInt value) ++ "`"
  | float value =>
    let digits := Config.floatText value
    let point := if value.isFinite && !digits.contains '.' then ".0" else ""
    "floating point `" ++ digits ++ point ++ "`"
  | bool value => if value then "boolean `true`" else "boolean `false`"
  | date _ => "map"

/-- The configuration value of a literal; a date or a time is a text. -/
def toValue : Literal → Value
  | text value => .text value
  | int value => .int value
  | float value => .float value
  | bool value => .bool value
  | date value => .text value

end Literal

end PhasedTests.Toml
