import PhasedTests.Sexp.Inline

/-!
# Layout over lines

The text of a whole document. Nodes that contain statements break: from their first child node on,
every child gets lines of its own, one step further in. A node breaks too when one of its children
breaks; every other node stays on one line. The source map relies on this, since one-line nodes are
what it can attribute to a line.
-/

namespace PhasedTests

/-- The tags of nodes that contain statements. -/
def containerTags : List String :=
  ["begin", "kwbegin", "block", "ensure", "rescue", "resbody", "class", "module", "sclass",
   "def", "defs", "if", "while", "until", "case", "when"]

namespace Tree

mutual

/-- Whether the tree is written over several lines. -/
def isMultiline : Tree → Bool
  | node tag children _ =>
    (containerTags.contains tag && children.any isNode) || anyMultiline children
  | leaf _ => false

/-- Whether one of the trees is written over several lines. -/
def anyMultiline : List Tree → Bool
  | [] => false
  | t :: rest => isMultiline t || anyMultiline rest

end

mutual

/-- The text of a tree whose own line is indented by `depth` steps of `indent` spaces. -/
def layoutChars (indent depth : Nat) : Tree → List Char
  | node tag children location =>
    if isMultiline (node tag children location) then
      '(' :: (tag.toList ++ layoutHead indent depth children)
    else inlineChars (node tag children location)
  | leaf value => value.inlineChars

/-- The children of a broken node up to its first child node stay on its first line. -/
def layoutHead (indent depth : Nat) : List Tree → List Char
  | [] => [')']
  | leaf value :: rest => ' ' :: (value.inlineChars ++ layoutHead indent depth rest)
  | node tag children location :: rest =>
    '\n' :: (List.replicate ((depth + 1) * indent) ' ' ++
      (layoutChars indent (depth + 1) (node tag children location) ++
        layoutTail indent depth rest))

/-- The children after the first child node of a broken node, each on lines of its own. -/
def layoutTail (indent depth : Nat) : List Tree → List Char
  | [] => [')']
  | t :: rest =>
    '\n' :: (List.replicate ((depth + 1) * indent) ' ' ++
      (layoutChars indent (depth + 1) t ++ layoutTail indent depth rest))

end

/-- The text of a document: the laid out tree and a line feed. -/
def layout (indent : Nat) (t : Tree) : String :=
  String.ofList (layoutChars indent 0 t ++ ['\n'])

end Tree

end PhasedTests
