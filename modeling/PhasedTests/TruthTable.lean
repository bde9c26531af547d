/-!
# Truth tables

Every combination of the values that some columns can take, in the layout of a data table. The
first column varies slowest.
-/

namespace PhasedTests

/-- Column names and rows of cells. -/
structure TruthTable where
  header : List String
  rows : List (List String)

namespace TruthTable

/-- Every row with every one of the values behind it. -/
def extend (rows : List (List String)) (values : List String) : List (List String) :=
  rows.flatMap fun row => values.map fun value => row ++ [value]

/-- One value of each column, in every combination. -/
def combinations (columns : List (List String)) : List (List String) :=
  columns.foldl extend [[]]

/-- The table of all combinations. A column without values leaves no rows, and so does an empty
header. -/
def ofValues (header : List String) (values : String → List String) : TruthTable :=
  ⟨header, if header.isEmpty then [] else combinations (header.map values)⟩

/-- The header and the rows; nothing when there is no header. -/
def lines (table : TruthTable) : List (List String) :=
  if table.header.isEmpty then [] else table.header :: table.rows

/-- The width of every column, in characters. -/
def widths (table : TruthTable) : List Nat :=
  (List.range table.header.length).map fun column =>
    (table.lines.filterMap (·[column]?)).foldl (fun width cell => max width cell.length) 0

/-- The cells of a line, all but the last one padded to the width of their columns. -/
def padded : List Nat → List String → List String
  | _, [] => []
  | _, [cell] => [cell]
  | width :: widths, cell :: rest =>
    (cell ++ String.ofList (List.replicate (width - cell.length) ' ')) :: padded widths rest
  | [], cell :: rest => cell :: padded [] rest

/-- The written table: aligned columns between bars, one line each. -/
def text (table : TruthTable) : String :=
  "\n".intercalate
    (table.lines.map fun line => " | ".intercalate (padded table.widths line))

end TruthTable

end PhasedTests
