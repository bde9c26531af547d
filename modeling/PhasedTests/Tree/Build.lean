import PhasedTests.Tree.Basic

/-!
# Generated nodes

Builders for the nodes that code generation makes. They carry no span.
-/

namespace PhasedTests.Tree.Build

/-- A node that was not read from a text. -/
def fresh (tag : String) (children : List Tree) : Tree :=
  .node tag children none

/-- The leaf or node in an optional place: nil when there is nothing. -/
def optional : Option Tree → Tree
  | some t => t
  | none => .nil

/-- A call of `method` on a receiver, or on none. -/
def call (receiver : Option Tree) (method : String) (args : List Tree) : Tree :=
  fresh "send" (optional receiver :: .symbol method :: args)

/-- A symbol literal. -/
def sym (name : String) : Tree :=
  fresh "sym" [.symbol name]

/-- A string literal. -/
def str (value : String) : Tree :=
  fresh "str" [.text value]

/-- An integer literal. -/
def int (value : Int64) : Tree :=
  fresh "int" [.int value]

/-- A read of a local variable. -/
def lvar (name : String) : Tree :=
  fresh "lvar" [.symbol name]

/-- An assignment to a local variable. -/
def lvasgn (name : String) (value : Tree) : Tree :=
  fresh "lvasgn" [.symbol name, value]

/-- A block parameter. -/
def arg (name : String) : Tree :=
  fresh "arg" [.symbol name]

/-- A constant, in a scope or at the top. -/
def constant (scope : Option Tree) (name : String) : Tree :=
  fresh "const" [optional scope, .symbol name]

/-- A sequence of statements. -/
def begin (statements : List Tree) : Tree :=
  fresh "begin" statements

/-- An array literal. -/
def array (values : List Tree) : Tree :=
  fresh "array" values

end PhasedTests.Tree.Build
