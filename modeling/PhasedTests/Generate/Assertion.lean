import PhasedTests.Ir.View

/-!
# Assertions

The assertion that checks a verification statement. Statements that check nothing, such as
assignments, are kept as they are.
-/

namespace PhasedTests.Generate

open Tree.Build

/-- The assertion of a comparison. The expected operand comes first, except that orderings keep
theirs in order. -/
def comparison (view : Ir.BinaryView) : Tree :=
  match view.operator with
  | "==" => call none "assert_equal" [view.rhs, view.lhs]
  | "!=" => call none "refute_equal" [view.rhs, view.lhs]
  | "=~" => call none "assert_match" [view.rhs, view.lhs]
  | "!~" => call none "refute_match" [view.rhs, view.lhs]
  | operator => call none "assert_operator" [view.lhs, sym operator, view.rhs]

/-- The operand of a negation. -/
def negated? (t : Tree) : Option Tree :=
  match t.call? with
  | some ⟨some operand, "!", []⟩ => some operand
  | _ => none

/-- The assertion that a condition is true, or that the operand of a negation is false. -/
def truth (view : Ir.StatementView) : Tree :=
  let message (word : String) := str ("Expected \"" ++ view.source ++ "\" to be " ++ word)
  match negated? view.expression with
  | some operand => call none "assert_equal" [fresh "false" [], operand, message "false"]
  | none => call none "assert_equal" [fresh "true" [], view.expression, message "true"]

/-- The assertion of a verification statement. -/
def assertion (statement : Tree) : Tree :=
  match Ir.View.of? statement with
  | some (.binary view) => (comparison view).located statement.location
  | some (.statement view) => (truth view).located statement.location
  | _ => statement

/-- The statements of the action inside a check that they raise an exception, which a variable may
capture. -/
def assertRaises (raises : Ir.RaisesView) (action : List Tree) : Tree :=
  let block := fresh "block"
    [call none "assert_raises" [raises.exception], fresh "args" [], begin action]
  match raises.variableName with
  | some name => lvasgn name block
  | none => block

end PhasedTests.Generate
