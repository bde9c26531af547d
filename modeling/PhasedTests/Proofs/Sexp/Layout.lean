import PhasedTests.Proofs.Sexp.Token
import PhasedTests.Proofs.Tree.Shape
import PhasedTests.Sexp.Layout

/-!
# The layout of a node

Whether a node breaks or not, it is written as its tag and its children, each child behind a
separator. The separator is a space until the node breaks and a line feed with the indentation from
then on. Written this way, the one-line form and the two parts of the broken form are one
definition.
-/

namespace PhasedTests

/-- How the children that follow are separated: all on one line, on one line up to the first child
node, or each on lines of its own. -/
inductive Separation where
  | inline
  | head
  | broken

namespace Separation

/-- The separation before and behind a child: the first child node breaks the line. -/
def step : Separation → Tree → Separation
  | head, .node .. => broken
  | separation, _ => separation

/-- The characters before a child of a node at this depth. -/
def chars (indent depth : Nat) : Separation → List Char
  | broken => '\n' :: List.replicate ((depth + 1) * indent) ' '
  | _ => [' ']

/-- The separation that a node starts with. -/
def ofMultiline : Bool → Separation
  | true => head
  | false => inline

private theorem step_bare (separation : Separation) (t : Tree) :
    separation.step t.bare = separation.step t := by
  cases separation <;> cases t <;> rfl

end Separation

namespace Tree

/-- The children of a node with their separators, and its closing parenthesis. -/
def layoutChildren (indent depth : Nat) (separation : Separation) : List Tree → List Char
  | [] => [')']
  | t :: rest =>
    (separation.step t).chars indent depth ++ (layoutChars indent (depth + 1) t ++
      layoutChildren indent depth (separation.step t) rest)

private theorem layoutChars_of_not_isMultiline {t : Tree} (hinline : t.isMultiline = false)
    (indent depth : Nat) : layoutChars indent depth t = t.inlineChars := by
  cases t with
  | leaf value => rfl
  | node tag children location => rw [layoutChars, if_neg (by rw [hinline]; decide)]

private theorem inlineTail_eq (indent depth : Nat) {trees : List Tree}
    (hinline : anyMultiline trees = false) :
    inlineTail trees = layoutChildren indent depth .inline trees := by
  induction trees with
  | nil => rfl
  | cons t rest ih =>
    rw [anyMultiline, Bool.or_eq_false_iff] at hinline
    rw [inlineTail, ih hinline.2, ← layoutChars_of_not_isMultiline hinline.1 indent (depth + 1)]
    rfl

private theorem layoutTail_eq (indent depth : Nat) (trees : List Tree) :
    layoutTail indent depth trees = layoutChildren indent depth .broken trees := by
  induction trees with
  | nil => rfl
  | cons t rest ih =>
    rw [layoutTail, ih]
    rfl

private theorem layoutHead_eq (indent depth : Nat) (trees : List Tree) :
    layoutHead indent depth trees = layoutChildren indent depth .head trees := by
  induction trees with
  | nil => rfl
  | cons t rest ih =>
    cases t with
    | leaf value =>
      rw [layoutHead, ih]
      rfl
    | node tag children location =>
      rw [layoutHead, layoutTail_eq]
      rfl

/-- A node is written as its tag and its separated children. -/
theorem layoutChars_node (indent depth : Nat) (tag : String) (children : List Tree)
    (location : Option Span) :
    layoutChars indent depth (node tag children location) =
      '(' :: (tag.toList ++ layoutChildren indent depth
        (.ofMultiline (isMultiline (node tag children location))) children) := by
  cases hmultiline : isMultiline (node tag children location) with
  | true => rw [layoutChars, if_pos hmultiline, layoutHead_eq]; rfl
  | false =>
    have hinline : anyMultiline children = false := by
      rw [isMultiline, Bool.or_eq_false_iff] at hmultiline
      exact hmultiline.2
    rw [layoutChars_of_not_isMultiline hmultiline, inlineChars, inlineTail_eq indent depth hinline]
    rfl

/-- What follows a tag or a child is a boundary. -/
theorem isBoundary_layoutChildren (indent depth : Nat) (separation : Separation)
    (trees : List Tree) (rest : List Char) :
    IsBoundary (layoutChildren indent depth separation trees ++ rest) := by
  cases trees with
  | nil => exact .closeParen rest
  | cons t trees =>
    rw [layoutChildren, List.append_assoc]
    cases separation.step t with
    | inline => exact .space _
    | head => exact .space _
    | broken => exact .newline _

/-! ## Spans are not written -/

mutual

/-- Whether a tree is laid out on several lines does not depend on places. -/
theorem isMultiline_bare : (t : Tree) → t.bare.isMultiline = t.isMultiline
  | leaf _ => rfl
  | node tag children location => by
    have hnodes : (bareAll children).any isNode = children.any isNode := by
      rw [bareAll_eq_map, List.any_map]
      exact congrArg (children.any ·) (funext isNode_bare)
    rw [bare, isMultiline, isMultiline, hnodes, anyMultiline_bareAll children]

private theorem anyMultiline_bareAll : (trees : List Tree) →
    anyMultiline (bareAll trees) = anyMultiline trees
  | [] => rfl
  | t :: rest => by
    rw [bareAll, anyMultiline, anyMultiline, isMultiline_bare t, anyMultiline_bareAll rest]

end

mutual

private theorem layoutChars_bare (indent : Nat) : (t : Tree) → (depth : Nat) →
    layoutChars indent depth t.bare = layoutChars indent depth t
  | leaf _, _ => rfl
  | node tag children location, depth => by
    have hmultiline := isMultiline_bare (node tag children location)
    rw [bare] at hmultiline ⊢
    rw [layoutChars_node, layoutChars_node, hmultiline, layoutChildren_bareAll indent children]

private theorem layoutChildren_bareAll (indent : Nat) : (trees : List Tree) → (depth : Nat) →
    (separation : Separation) → layoutChildren indent depth separation (bareAll trees) =
      layoutChildren indent depth separation trees
  | [], _, _ => rfl
  | t :: rest, depth, separation => by
    rw [bareAll, layoutChildren, layoutChildren, Separation.step_bare, layoutChars_bare indent t,
      layoutChildren_bareAll indent rest]

end

/-- Trees of one shape have the same text. -/
theorem layout_eq_of_bare_eq {a b : Tree} (hshape : a.bare = b.bare) (indent : Nat) :
    a.layout indent = b.layout indent := by
  unfold layout
  rw [← layoutChars_bare indent a, hshape, layoutChars_bare]

end Tree

end PhasedTests
