import PhasedTests.Phase.Basic

/-!
# Blocks of a test body

The flat list of a test's statements splits into blocks: an introducer and the statements up to
the next one. Splitting checks the order of the phases and names the last phase that was opened in
order when the next one is wrong.
-/

namespace PhasedTests

/-- One phase with its statements. Only the synthetic start has no introducer. -/
structure Block where
  phase : Phase
  introducer : Option Tree
  statements : List Tree

/-- A phase was followed by one that it does not allow, or the test started or ended badly. -/
structure PhaseOrderError where
  phase : Phase
  location : Option Span
  expected : List Phase

namespace PhaseOrderError

/-- The wording of the error. -/
def message (e : PhaseOrderError) : String :=
  let expected := ", ".intercalate (e.expected.map Phase.name)
  if e.phase = .start then
    "Test method @ " ++ Span.describe e.location ++
      " must start with one of these Blocks: [" ++ expected ++ "]"
  else
    "Block " ++ e.phase.name ++ " @ " ++ Span.describe e.location ++
      " must be followed by one of these Blocks: [" ++ expected ++ "]"

end PhaseOrderError

namespace Block

/-- The span of the introducer. -/
def location (block : Block) : Option Span :=
  block.introducer.bind Tree.location

/-- The error of going on wrongly after this block, placed at the test when the block has no place
of its own. -/
def orderError (block : Block) (test : Option Span) : PhaseOrderError :=
  ⟨block.phase, block.location.or test, block.phase.successors⟩

/-- The block with one more statement. -/
def push (block : Block) (statement : Tree) : Block :=
  { block with statements := block.statements ++ [statement] }

/-- Splits the statements after `current`, the block that is open. -/
def splitAfter (test : Option Span) (current : Block) :
    List Tree → Except PhaseOrderError (List Block)
  | [] => if current.phase.allows .finish then .ok [current] else .error (current.orderError test)
  | statement :: rest =>
    match statement.introduces? with
    | some phase =>
      if current.phase.allows phase then do
        let later ← splitAfter test ⟨phase, some statement, []⟩ rest
        return if current.phase = .start then later else current :: later
      else .error (current.orderError test)
    | none =>
      if current.phase = .start then .error (current.orderError test)
      else splitAfter test (current.push statement) rest

/-- Splits a test body into its blocks; `test` is the place of the test. -/
def split (test : Option Span) (statements : List Tree) : Except PhaseOrderError (List Block) :=
  splitAfter test ⟨.start, none, []⟩ statements

end Block

end PhasedTests
