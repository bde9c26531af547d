import PhasedTests.Error
import PhasedTests.Ir.View

/-!
# Data tables

The first statement of a Where phase names the columns and the others are rows. Cells are joined
by `|`, which associates to the left like any operator; flattening gets them back in order.
-/

namespace PhasedTests.Table

/-- The cells of a row, left to right. -/
def cells (t : Tree) : List Tree :=
  match t with
  | .node tag [left, .leaf (.symbol "|"), right] _ =>
    if (tag == "send" || tag == "csend") && left.isNode && right.isNode then
      cells left ++ cells right
    else [t]
  | _ => [t]

/-- The column name that a header cell stands for. -/
def columnName (header cell : Tree) : Except TransformError String :=
  match cell.bareCall? with
  | some name => .ok name
  | none => .error (.malformedTable (.badHeaderCell cell) (cell.location.or header.location))

/-- The column names of a header row. -/
def columns (header : Tree) : Except TransformError (List String) :=
  (cells header).mapM (columnName header)

/-- The array node of a row that must have `width` cells. -/
def row (width : Nat) (t : Tree) : Except TransformError Tree :=
  let found := cells t
  if found.length = width then .ok ((Tree.Build.array found).located t.location)
  else .error (.malformedTable (.wrongWidth found.length width) t.location)

/-- The table of a Where block. -/
def parse (block : Block) : Except TransformError Tree :=
  match block.statements with
  | [] => .error (.malformedTable .noHeader block.location)
  | header :: rows => do
    let names ← columns header
    let built ← rows.mapM (row names.length)
    return (Ir.TableView.build ⟨names, built⟩).located block.location

end PhasedTests.Table
