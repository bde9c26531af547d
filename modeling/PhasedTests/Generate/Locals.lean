import PhasedTests.Tree.Build
import PhasedTests.Tree.Call

/-!
# Locals of a generated test

Inside a generated test the columns of its data table, the row's index and its line are local
variables, although the test's text calls them like methods. The test's name shows the index and
the line of the row.
-/

namespace PhasedTests.Generate

open Tree.Build

/-- The local that holds the index of the data row. -/
def testIndex : String :=
  "_test_index_"

/-- The local that holds the line of the data row. -/
def lineNumber : String :=
  "_line_number_"

mutual

/-- Replaces bare calls to any of the names by reads of local variables. -/
def callsToLocals (names : List String) : Tree → Tree
  | .leaf value => .leaf value
  | .node tag children location =>
    match (Tree.node tag children location).bareCall?.filter names.contains with
    | some name => .node "lvar" [.symbol name] location
    | none => .node tag (callsToLocalsAll names children) location

/-- Replaces bare calls in every tree of a list. -/
def callsToLocalsAll (names : List String) : List Tree → List Tree
  | [] => []
  | t :: rest => callsToLocals names t :: callsToLocalsAll names rest

end

/-- The parts that show the row's index and line in a test's name. -/
def nameSuffix : List Tree :=
  [str " ", begin [lvar testIndex], str " line ", begin [lvar lineNumber]]

/-- The name with the row's index and line; only literal names are extended. -/
def indexedName? (name : Tree) : Option Tree :=
  match name with
  | .node "str" _ location => some (.node "dstr" (name :: nameSuffix) location)
  | .node "dstr" parts location => some (.node "dstr" (parts ++ nameSuffix) location)
  | _ => none

/-- The test call whose name shows the row's index and line. -/
def indexedTestName (testCall : Tree) : Tree :=
  match (testCall.nodeAt? 2).bind indexedName? with
  | some name => testCall.withChildren (testCall.children.set 2 name)
  | none => testCall

end PhasedTests.Generate
