import PhasedTests.Error
import PhasedTests.Ir.View
import PhasedTests.Test.Context

/-!
# Verification statements

What a statement of a Then or Expect phase says: an expected exception (in Then phases), an
assignment, a comparison of two operands, or a condition that must hold.
-/

namespace PhasedTests.Statement

/-- The operators of comparisons. -/
def comparisonOperators : List String :=
  ["==", "!=", "=~", "!~", ">", "<", ">=", "<="]

/-- The tags of assignments, which run as they are. -/
def assignmentTags : List String :=
  ["lvasgn", "masgn", "op_asgn", "or_asgn", "and_asgn"]

/-- The call that may be a raises condition, and the variable it is assigned to. -/
def assigned (t : Tree) : Option (Tree × Option String) :=
  if t.hasTag "lvasgn" then
    match t.symbolAt? 0, t.nodeAt? 1 with
    | some name, some value => some (value, some name)
    | _, _ => none
  else some (t, none)

/-- The arguments of a `raises` call without receiver, alone or assigned to a variable. -/
def raisesCall? (t : Tree) : Option (List Tree × Option String) :=
  match assigned t with
  | none => none
  | some (value, variableName) =>
    match value.call? with
    | some ⟨none, "raises", args⟩ => some (args, variableName)
    | _ => none

/-- The expected exception of a raises condition: its first argument that is a node. -/
def raises? (t : Tree) : Except TransformError (Option Tree) :=
  match raisesCall? t with
  | none => .ok none
  | some (args, variableName) =>
    match Tree.nodesOf args with
    | exception :: _ =>
      .ok (some ((Ir.RaisesView.build ⟨exception, variableName⟩).located t.location))
    | [] => .error (.raisesCondition .noException t.location)

/-- The comparison that a statement makes. -/
def comparison? (t : Tree) : Option Ir.BinaryView :=
  match t.binaryCall? with
  | some (lhs, operator, rhs) =>
    if comparisonOperators.contains operator then some ⟨lhs, operator, rhs⟩ else none
  | none => none

/-- What a statement that is no raises condition says. -/
def condition (context : Context) (t : Tree) : Tree :=
  if t.tagIn assignmentTags then t
  else
    match comparison? t with
    | some view => view.build.located t.location
    | none => (Ir.StatementView.build ⟨t, context.sourceText t⟩).located t.location

/-- What a statement of a Then phase says, where exceptions may be expected, or of an Expect phase,
where they may not. -/
def classify (context : Context) (raisesAllowed : Bool) (t : Tree) : Except TransformError Tree :=
  if raisesAllowed then do
    match ← raises? t with
    | some built => return built
    | none => return condition context t
  else .ok (condition context t)

end PhasedTests.Statement
