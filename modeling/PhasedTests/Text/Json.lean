import PhasedTests.Text.Numeral

/-!
# JSON text

Strings, numbers and objects as they are written in JSON. An object takes several lines, with two
spaces for every level of depth; an empty one is a pair of braces.
-/

namespace PhasedTests.Text.Json

/-- The hexadecimal digit of a number below sixteen. -/
def hexDigit (value : Nat) : Char :=
  Nat.digitChar value

/-- A character inside a JSON string. -/
def escape (c : Char) : List Char :=
  if c = '"' then ['\\', '"']
  else if c = '\\' then ['\\', '\\']
  else if c = '\n' then ['\\', 'n']
  else if c = '\r' then ['\\', 'r']
  else if c = '\t' then ['\\', 't']
  else if c = '\x08' then ['\\', 'b']
  else if c = '\x0c' then ['\\', 'f']
  else if c.toNat < 0x20 then
    ['\\', 'u', '0', '0', hexDigit (c.toNat / 16), hexDigit (c.toNat % 16)]
  else [c]

/-- A JSON string. -/
def quote (text : String) : String :=
  "\"" ++ String.ofList (text.toList.flatMap escape) ++ "\""

/-- A number, or `null`. -/
def numberOrNull : Option Nat → String
  | some value => String.ofList (Numeral.toDigits value)
  | none => "null"

/-- An object over several lines, whose closing brace is indented by `depth` levels. -/
def object (depth : Nat) (fields : List (String × String)) : String :=
  let indent (depth : Nat) := String.ofList (List.replicate (2 * depth) ' ')
  if fields.isEmpty then "\x7b\x7d"
  else
    "\x7b\n" ++
      ",\n".intercalate (fields.map fun field =>
        indent (depth + 1) ++ quote field.1 ++ ": " ++ field.2) ++
      "\n" ++ indent depth ++ "\x7d"

end PhasedTests.Text.Json
