import PhasedTests.Generate.Locals

/-!
# Unrolled loops

A generated loop over a data table stands for one test per row. Unrolling puts the cells of each
row, its index and its line in the place of the locals that the test reads.
-/

namespace PhasedTests.Generate

open Tree.Build (int)

/-- The test of one data row. -/
structure Unrolled where
  index : Nat
  line : Option Int64
  test : Tree

mutual

/-- Replaces reads of bound locals by their values, all at once. -/
def substitute (bindings : List (String × Tree)) : Tree → Tree
  | .leaf value => .leaf value
  | .node tag children location =>
    let bound := if tag == "lvar" then
        ((Tree.node tag children location).symbolAt? 0).bind fun name => bindings.lookup name
      else none
    match bound with
    | some value => value
    | none => .node tag (substituteAll bindings children) location

/-- Replaces reads of bound locals in every tree of a list. -/
def substituteAll (bindings : List (String × Tree)) : List Tree → List Tree
  | [] => []
  | t :: rest => substitute bindings t :: substituteAll bindings rest

end

/-- The test of the row with this index. Of two columns with one name the later one counts, and the
index counts before all columns. -/
def unrollRow (names : List String) (test : Tree) (index : Nat) (row : Tree) : Option Unrolled :=
  let values := row.childNodes
  if values.length = names.length then
    let line := match values.getLast?.bind fun value => value.children[0]? with
      | some (Tree.leaf (Scalar.int line)) => some line
      | _ => none
    let bindings := (testIndex, int (Int64.ofNat index)) :: (names.zip values).reverse
    some ⟨index, line, substitute bindings test⟩
  else none

/-- The tests of consecutive rows, the first of which has this index. -/
def unrollRows (names : List String) (test : Tree) (index : Nat) :
    List Tree → Option (List Unrolled)
  | [] => some []
  | row :: rest => do
    let first ← unrollRow names test index row
    let others ← unrollRows names test (index + 1) rest
    return first :: others

/-- The data rows that a `rows.each.with_index` call iterates over. -/
def loopRows? (iteration : Tree) : Option Tree := do
  let withIndex ← iteration.call?
  guard (withIndex.method == "with_index")
  let each ← (← withIndex.receiver).call?
  guard (each.method == "each")
  let rows ← each.receiver
  guard (rows.hasTag "array")
  return rows

/-- The column names of a loop's parameters, the last of which is the row's line. -/
def loopColumns? (params : Tree) : Option (List String) := do
  let columns ← params.nodeAt? 0
  guard (columns.hasTag "mlhs")
  let names ← columns.childNodes.mapM fun column => column.symbolAt? 0
  guard (names.getLast? == some lineNumber)
  return names

/-- The tests of a generated loop, one per row; none if the tree is no such loop. -/
def unroll? (t : Tree) : Option (List Unrolled) := do
  guard (t.hasTag "block")
  let rows ← loopRows? (← t.nodeAt? 0)
  let names ← loopColumns? (← t.nodeAt? 1)
  let test ← t.nodeAt? 2
  unrollRows names test 0 rows.childNodes

end PhasedTests.Generate
