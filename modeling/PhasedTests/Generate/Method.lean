import PhasedTests.Generate.Assertion
import PhasedTests.Generate.Locals
import PhasedTests.Generate.Mock

/-!
# Generated test methods

A parsed test becomes a plain one. Its body runs the Given statements, every mock expectation of
the Then phase, the action, the checks of the Then phase and those of the Expect phase; Cleanup
statements are run whatever happens. The action is the When statements, inside a check for the
expected exception if there is one. With a data table the method is generated once and iterated
over the rows.
-/

namespace PhasedTests.Generate

open Tree.Build

/-- The statements of a generated body, by the section they go into. -/
structure Sections where
  given : List Tree
  setup : List Tree
  action : List Tree
  checks : List Tree
  expectations : List Tree
  cleanup : List Tree
  raises : Option Ir.RaisesView

namespace Sections

/-- No statements. -/
def empty : Sections :=
  ⟨[], [], [], [], [], [], none⟩

/-- Adds the statements of a Then phase; interactions are numbered from `ordinal`. -/
def addThen (sections : Sections) (ordinal : Nat) : List Tree → Except TransformError Sections
  | [] => .ok sections
  | statement :: rest =>
    match Ir.View.of? statement with
    | some (.interaction view) => do
      let mock ← mock view statement.location ordinal
      addThen
        { sections with
          setup := sections.setup ++ mock.setup
          checks := sections.checks ++ mock.verification }
        (ordinal + 1) rest
    | some (.raises view) =>
      if sections.raises.isSome then
        .error (.raisesCondition .repeated statement.location)
      else addThen { sections with raises := some view } ordinal rest
    | _ =>
      addThen { sections with checks := sections.checks ++ [assertion statement] } ordinal rest

/-- Adds the statements of a phase. -/
def add (sections : Sections) (view : Ir.PhaseView) : Except TransformError Sections :=
  match view.phase with
  | .given => .ok { sections with given := sections.given ++ view.statements }
  | .when => .ok { sections with action := sections.action ++ view.statements }
  | .cleanup => .ok { sections with cleanup := sections.cleanup ++ view.statements }
  | .expect =>
    .ok { sections with
      expectations := sections.expectations ++ view.statements.map assertion }
  | .then => sections.addThen 0 view.statements
  | .start | .where | .finish => .ok sections

/-- The sections of a body's phases. -/
def ofPhases (phases : List Ir.PhaseView) : Except TransformError Sections :=
  phases.foldlM add empty

/-- The action, which is a single check if an exception is expected. -/
def checkedAction (sections : Sections) : List Tree :=
  match sections.raises with
  | some view => [assertRaises view sections.action]
  | none => sections.action

/-- The statements that run in order. -/
def statements (sections : Sections) : List Tree :=
  sections.given ++ sections.setup ++ sections.checkedAction ++ sections.checks ++
    sections.expectations

/-- The body: the statements, followed by the cleanup whatever happens, if there is any. -/
def body (sections : Sections) : Tree :=
  if sections.cleanup.isEmpty then begin sections.statements
  else fresh "kwbegin" [fresh "ensure" [begin sections.statements, begin sections.cleanup]]

end Sections

/-- The generated body of a test. -/
def methodBody (view : Ir.BodyView) : Except TransformError Tree := do
  let sections ← Sections.ofPhases view.phases
  return callsToLocals [testIndex, lineNumber] sections.body

/-- The cells of a data row and its line. -/
def rowValues (row : Tree) : Tree :=
  let line := match row.line? with
    | some line => int (Int64.ofNat line)
    | none => fresh "nil" []
  fresh "array" (row.children ++ [line])

/-- The loop over the rows of a data table that defines one test for each. -/
def loop (definition : Ir.DefView) (body : Tree) (table : Ir.TableView) : Tree :=
  let method := fresh "block" [indexedTestName definition.methodCall, definition.args, body]
  let rows := array (table.rows.map rowValues)
  let iteration := call (some (call (some rows) "each" [])) "with_index" []
  let columns := table.header.map arg ++ [arg lineNumber]
  fresh "block"
    [iteration, fresh "args" [fresh "mlhs" columns, arg testIndex],
     callsToLocals table.header method]

/-- The method, or the loop over methods, of a parsed test. -/
def method (test : Tree) : Except TransformError Tree :=
  match Ir.TestView.of? test with
  | none => .error (.notAParsedTest test.tag)
  | some view => do
    let body ← methodBody view.body
    match view.table with
    | some table => return loop view.definition body table
    | none => return fresh "block" [view.definition.methodCall, view.definition.args, body]

end PhasedTests.Generate
