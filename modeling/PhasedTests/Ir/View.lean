import PhasedTests.Phase.Basic
import PhasedTests.Tree.Build

/-!
# Parsed tests

A parsed test is a tree with reserved tags. For every kind of node there is a view, which names
the node's fields, a function that builds the node from them, and a function that reads them back.
A node whose shape does not fit its tag has no view.
-/

namespace PhasedTests.Ir

open Tree.Build (fresh optional)

/-- The test call and the parameters of a test method. -/
structure DefView where
  methodCall : Tree
  args : Tree

/-- A phase and its statements. -/
structure PhaseView where
  phase : Phase
  statements : List Tree

/-- The phases of a test body, in order. -/
structure BodyView where
  phases : List PhaseView

/-- A data table: the column names and one array node per row. -/
structure TableView where
  header : List String
  rows : List Tree

/-- A whole test. -/
structure TestView where
  definition : DefView
  body : BodyView
  table : Option TableView

/-- A mock interaction: how often the receiver must get the message, with which arguments, what it
answers, and the block passed along. -/
structure InteractionView where
  cardinality : Tree
  receiver : Tree
  message : String
  args : Option Tree
  outcome : Option Tree
  blockPass : Option Tree

/-- A comparison of two operands. -/
structure BinaryView where
  lhs : Tree
  operator : String
  rhs : Tree

/-- A condition that must hold, with its source text. -/
structure StatementView where
  expression : Tree
  source : String

/-- An expected exception and the variable that captures it. -/
structure RaisesView where
  exception : Tree
  variableName : Option String

/-- One node of a parsed test, by kind. -/
inductive View where
  | test (view : TestView)
  | definition (view : DefView)
  | body (view : BodyView)
  | phase (view : PhaseView)
  | table (view : TableView)
  | interaction (view : InteractionView)
  | binary (view : BinaryView)
  | statement (view : StatementView)
  | raises (view : RaisesView)
  | returns (value : Tree)
  | stubRaises (args : List Tree)

namespace DefView

/-- The node of a definition. -/
def build (view : DefView) : Tree :=
  fresh "ps_def" [view.methodCall, view.args]

/-- The definition that a node holds. -/
def of? (t : Tree) : Option DefView :=
  if t.hasTag "ps_def" then do
    return ⟨← t.nodeAt? 0, ← t.nodeAt? 1⟩
  else none

end DefView

namespace PhaseView

/-- The node of a phase. -/
def build (view : PhaseView) : Tree :=
  fresh (view.phase.irTag?.getD "") view.statements

/-- The phase that a node holds. -/
def of? (t : Tree) : Option PhaseView :=
  (Phase.ofIrTag? t.tag).map fun phase => ⟨phase, t.childNodes⟩

end PhaseView

namespace BodyView

/-- The node of a body with these phase nodes. -/
def build (phases : List Tree) : Tree :=
  fresh "ps_body" phases

/-- The body that a node holds. Children that are no phases are passed over. -/
def of? (t : Tree) : Option BodyView :=
  if t.hasTag "ps_body" then some ⟨t.childNodes.filterMap PhaseView.of?⟩ else none

end BodyView

namespace TableView

/-- The node of a data table. -/
def build (view : TableView) : Tree :=
  fresh "ps_where" (fresh "ps_where_header" (view.header.map .symbol) :: view.rows)

/-- The data table that a node holds. -/
def of? (t : Tree) : Option TableView :=
  if t.hasTag "ps_where" then
    match t.nodeAt? 0 with
    | some header =>
      if header.hasTag "ps_where_header" then
        some ⟨header.children.filterMap Tree.symbol?, t.childNodes.drop 1⟩
      else none
    | none => none
  else none

end TableView

namespace TestView

/-- The node of a test with these parts. -/
def build (definition body : Tree) (table : Option Tree) : Tree :=
  fresh "ps_test" (definition :: body :: table.toList)

/-- The data table of a test, which has none if it has no third node. A third node must be a data
table. -/
def table? (t : Tree) : Option (Option TableView) :=
  match t.nodeAt? 2 with
  | some node => (TableView.of? node).map some
  | none => some none

/-- The test that a node holds. -/
def of? (t : Tree) : Option TestView :=
  if t.hasTag "ps_test" then do
    let definition ← (t.nodeAt? 0).bind DefView.of?
    let body ← (t.nodeAt? 1).bind BodyView.of?
    return ⟨definition, body, ← table? t⟩
  else none

end TestView

namespace InteractionView

/-- The node of an interaction. -/
def build (view : InteractionView) : Tree :=
  fresh "ps_interaction"
    [view.cardinality, view.receiver, .symbol view.message, optional view.args,
     optional view.outcome, optional view.blockPass]

/-- The interaction that a node holds. -/
def of? (t : Tree) : Option InteractionView :=
  if t.hasTag "ps_interaction" && t.children.length == 6 then do
    return ⟨← t.nodeAt? 0, ← t.nodeAt? 1, ← t.symbolAt? 2, t.nodeAt? 3, t.nodeAt? 4, t.nodeAt? 5⟩
  else none

end InteractionView

namespace BinaryView

/-- The node of a comparison. -/
def build (view : BinaryView) : Tree :=
  fresh "ps_binary_statement" [view.lhs, .symbol view.operator, view.rhs]

/-- The comparison that a node holds. -/
def of? (t : Tree) : Option BinaryView :=
  if t.hasTag "ps_binary_statement" then do
    return ⟨← t.nodeAt? 0, ← t.symbolAt? 1, ← t.nodeAt? 2⟩
  else none

end BinaryView

namespace StatementView

/-- The node of a condition. -/
def build (view : StatementView) : Tree :=
  fresh "ps_statement" [view.expression, .text view.source]

/-- The condition that a node holds. -/
def of? (t : Tree) : Option StatementView :=
  if t.hasTag "ps_statement" then
    match t.nodeAt? 0, t.children[1]? with
    | some expression, some (Tree.leaf (Scalar.text source)) => some ⟨expression, source⟩
    | _, _ => none
  else none

end StatementView

namespace RaisesView

/-- The node of an expected exception. -/
def build (view : RaisesView) : Tree :=
  fresh "ps_raises" (view.exception :: (view.variableName.map .symbol).toList)

/-- The expected exception that a node holds. -/
def of? (t : Tree) : Option RaisesView :=
  if t.hasTag "ps_raises" then
    (t.nodeAt? 0).map fun exception => ⟨exception, t.symbolAt? 1⟩
  else none

end RaisesView

/-- The node of a stubbed answer. -/
def buildReturns (value : Tree) : Tree :=
  fresh "ps_returns" [value]

/-- The node of a stubbed exception. -/
def buildStubRaises (args : List Tree) : Tree :=
  fresh "ps_stub_raises" args

/-- What a node of a parsed test holds. -/
def View.of? (t : Tree) : Option View :=
  match t.tag with
  | "ps_test" => (TestView.of? t).map .test
  | "ps_def" => (DefView.of? t).map .definition
  | "ps_body" => (BodyView.of? t).map .body
  | "ps_where" => (TableView.of? t).map .table
  | "ps_interaction" => (InteractionView.of? t).map .interaction
  | "ps_binary_statement" => (BinaryView.of? t).map .binary
  | "ps_statement" => (StatementView.of? t).map .statement
  | "ps_raises" => (RaisesView.of? t).map .raises
  | "ps_returns" => (t.nodeAt? 0).map .returns
  | "ps_stub_raises" => some (.stubRaises t.children)
  | _ => (PhaseView.of? t).map .phase

end PhasedTests.Ir
