import PhasedTests.Source.Span

/-!
# Trees

Test code and everything made from it is a tagged tree: a node has a tag, an ordered list of
children and, if it was read from a text, the span it was read from; a leaf holds a scalar.
Equality looks at tags, children and scalars and never at spans, which is what lets a generated
node be found again in another tree. Floats are compared as numbers, so a tree that holds a
not-a-number is not equal to itself.
-/

namespace PhasedTests

/-- A value that a node holds beside other nodes. -/
inductive Scalar where
  | symbol (name : String)
  | text (value : String)
  | int (value : Int64)
  | float (value : Float)
  | nil

namespace Scalar

/-- Equality of scalars, with numeric equality of floats. -/
def same : Scalar → Scalar → Bool
  | symbol a, symbol b => a == b
  | text a, text b => a == b
  | int a, int b => a == b
  | float a, float b => a == b
  | nil, nil => true
  | _, _ => false

instance : BEq Scalar := ⟨same⟩

end Scalar

/-- A tagged tree. Only nodes have tags, children and spans. -/
inductive Tree where
  | node (tag : String) (children : List Tree) (location : Option Span)
  | leaf (value : Scalar)

instance : Inhabited Tree := ⟨.leaf .nil⟩

namespace Tree

/-- A leaf that holds a symbol. -/
abbrev symbol (name : String) : Tree := .leaf (.symbol name)

/-- A leaf that holds a text. -/
abbrev text (value : String) : Tree := .leaf (.text value)

/-- A leaf that holds an integer. -/
abbrev int (value : Int64) : Tree := .leaf (.int value)

/-- The leaf that holds nothing. -/
abbrev nil : Tree := .leaf .nil

mutual

/-- Structural equality, blind to spans. -/
def same : Tree → Tree → Bool
  | node tag children _, node tag' children' _ => tag == tag' && sameAll children children'
  | leaf a, leaf b => a == b
  | _, _ => false

/-- Structural equality of lists of trees. -/
def sameAll : List Tree → List Tree → Bool
  | [], [] => true
  | t :: rest, t' :: rest' => same t t' && sameAll rest rest'
  | _, _ => false

end

instance : BEq Tree := ⟨same⟩

/-- Whether the tree is a node. -/
def isNode : Tree → Bool
  | node .. => true
  | leaf _ => false

/-- The tag of a node; a leaf has the empty one, which no node read from a text has. -/
def tag : Tree → String
  | node tag _ _ => tag
  | leaf _ => ""

/-- Whether the tree is a node with this tag. -/
def hasTag (t : Tree) (tag : String) : Bool :=
  t.isNode && t.tag == tag

/-- Whether the tree is a node with one of these tags. -/
def tagIn (t : Tree) (tags : List String) : Bool :=
  t.isNode && tags.contains t.tag

/-- The children of a node; a leaf has none. -/
def children : Tree → List Tree
  | node _ children _ => children
  | leaf _ => []

/-- Where the node was read, if it was read. -/
def location : Tree → Option Span
  | node _ _ location => location
  | leaf _ => none

/-- The first line of the node in its text. -/
def line? (t : Tree) : Option Nat :=
  t.location.map fun span => span.start.line

/-- The node with another span, or with none. -/
def located : Tree → Option Span → Tree
  | node tag children _, location => node tag children location
  | leaf value, _ => leaf value

/-- The node with other children, at the same place. -/
def withChildren : Tree → List Tree → Tree
  | node tag _ location, children => node tag children location
  | leaf value, _ => leaf value

/-- The nodes of a list of trees, in order. -/
def nodesOf (trees : List Tree) : List Tree :=
  trees.filter isNode

/-- The children that are nodes, in order. -/
def childNodes (t : Tree) : List Tree :=
  nodesOf t.children

/-- The child at an index, if it is a node. -/
def nodeAt? (t : Tree) (index : Nat) : Option Tree :=
  t.children[index]?.filter isNode

/-- The symbol of a leaf. -/
def symbol? : Tree → Option String
  | leaf (.symbol name) => some name
  | _ => none

/-- The symbol at an index, if there is one. -/
def symbolAt? (t : Tree) (index : Nat) : Option String :=
  t.children[index]?.bind symbol?

/-- The node that a path of child indices leads to. Leaves and missing children end the walk. -/
def dig? (t : Tree) : List Nat → Option Tree
  | [] => some t
  | index :: path => (t.nodeAt? index).bind fun child => child.dig? path

end Tree

end PhasedTests
