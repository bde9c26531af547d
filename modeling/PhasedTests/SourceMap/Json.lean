import PhasedTests.SourceMap.Basic
import PhasedTests.Text.Json

/-!
# Source maps as JSON

The written form of a source map: both paths, the number of lines, and the source line of every
line under its number.
-/

namespace PhasedTests.SourceMap

open Text

/-- The written form of a source map. -/
def json (map : SourceMap) : String :=
  let lines := map.entries.map fun entry =>
    (String.ofList (Numeral.toDigits entry.1), Json.numberOrNull entry.2)
  Json.object 0 [
    ("source_file_path", Json.quote map.source),
    ("transformed_file_path", Json.quote map.transformed),
    ("line_count", Json.numberOrNull (some map.lineCount)),
    ("mapping", Json.object 1 lines)]

end PhasedTests.SourceMap
