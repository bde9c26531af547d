import PhasedTests.Interaction.Basic
import PhasedTests.Test.Statement
import PhasedTests.Test.Table

/-!
# Test methods

A test method is a block: a call of `test`, the parameters and a body. Its statements split into
phases; the statements of verification phases are classified, all others stay as they are.
-/

namespace PhasedTests

namespace Tree

/-- Whether the tree is a block that calls `test`. -/
def isTestBlock (t : Tree) : Bool :=
  t.hasTag "block" &&
    (match (t.nodeAt? 0).bind call? with
      | some call => call.method == "test"
      | none => false) &&
    (match t.nodeAt? 1 with
      | some args => args.hasTag "args"
      | none => false)

/-- The statements of a block's body: none, the nodes of a `begin`, or the one statement. -/
def testStatements (t : Tree) : List Tree :=
  match t.nodeAt? 2 with
  | none => []
  | some body => if body.hasTag "begin" then body.childNodes else [body]

end Tree

namespace TestMethod

/-- A statement of a Then phase: an interaction or a verification statement. -/
def thenStatement (context : Context) (t : Tree) : Except TransformError Tree :=
  if t.isInteraction then Interaction.parse t else Statement.classify context true t

/-- The parsed statements of a phase. -/
def phaseStatements (context : Context) (phase : Phase) (statements : List Tree) :
    Except TransformError (List Tree) :=
  match phase with
  | .then => statements.mapM (thenStatement context)
  | .expect => statements.mapM (Statement.classify context false)
  | _ => .ok statements

/-- The node of a phase other than a table. -/
def phaseNode (context : Context) (block : Block) : Except TransformError Tree := do
  let statements ← phaseStatements context block.phase block.statements
  return (Ir.PhaseView.build ⟨block.phase, statements⟩).located block.location

/-- The phase nodes of the blocks, and the data table of the last Where block. -/
def parseBlocks (context : Context) :
    List Block → Except TransformError (List Tree × Option Tree)
  | [] => .ok ([], none)
  | block :: rest =>
    if block.phase = .where then do
      let table ← Table.parse block
      let (phases, later) ← parseBlocks context rest
      return (phases, later.or (some table))
    else do
      let phase ← phaseNode context block
      let (phases, table) ← parseBlocks context rest
      return (phase :: phases, table)

/-- Parses a test method. -/
def parse (context : Context) (t : Tree) : Except TransformError Tree :=
  match t.nodeAt? 0, t.nodeAt? 1 with
  | some methodCall, some args =>
    match Block.split t.location t.testStatements with
    | .error cause => .error (.phaseOrder cause)
    | .ok blocks => do
      let (phases, table) ← parseBlocks context blocks
      let definition := Ir.DefView.build ⟨methodCall, args⟩
      return (Ir.TestView.build definition (Ir.BodyView.build phases) table).located t.location
  | _, _ => .error (.notATestBlock t.tag)

end TestMethod

end PhasedTests
