import PhasedTests.SourceMap.Registry
import PhasedTests.Text.Blank
import PhasedTests.Text.DecimalDigit
import PhasedTests.Text.Numeral

/-!
# Backtraces

A backtrace frame that starts with `path:line` of a transformed file is shown at its source. Other
frames stay as they are, among them frames that go on over a second line.
-/

namespace PhasedTests

open Text

/-- A frame taken apart: `path:digits` and the rest. -/
structure Frame where
  path : List Char
  digits : List Char
  rest : List Char

namespace Frame

/-- Takes a frame apart. The path holds no colon and no blank, the digits are of any script and as
many as there are, and the rest holds no line feed. -/
def parse? (chars : List Char) : Option Frame :=
  let path := chars.takeWhile fun c => !(isBlank c || c == ':')
  match chars.drop path.length with
  | ':' :: after =>
    let digits := after.takeWhile isDecimalDigit
    let rest := after.drop digits.length
    if path.isEmpty || digits.isEmpty || rest.contains '\n' then none
    else some ⟨path, digits, rest⟩
  | _ => none

end Frame

namespace Registry

/-- The source path and line of a line of a transformed file. -/
def sourceOf? (registry : Registry) (path : String) (line : Nat) :
    Option (String × Option Nat) :=
  (registry.find? path).map fun map => (map.source, map.line? line)

/-- The frame shown at its source. An unknown line is shown as a question mark. -/
def filterFrame (registry : Registry) (frame : String) : String :=
  let moved := do
    let parts ← Frame.parse? frame.toList
    let line ← Numeral.toWord? parts.digits
    let (source, sourceLine) ← registry.sourceOf? (String.ofList parts.path) line
    let shown := match sourceLine with
      | some line => toString line
      | none => "?"
    return source ++ ":" ++ shown ++ String.ofList parts.rest
  moved.getD frame

/-- The frames of a backtrace shown at their sources. -/
def filterBacktrace (registry : Registry) (frames : List String) : List String :=
  frames.map registry.filterFrame

end Registry

end PhasedTests
