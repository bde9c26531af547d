import PhasedTests.Error
import PhasedTests.Tree.Build

/-!
# Cardinalities

How often a collaborator must receive a message: a count, `_` for any number of times, or a
parenthesized range whose bounds may be `_` too. A range that leaves out its upper bound is turned
into one that includes it, so every cardinality has a written form with inclusive bounds.
-/

namespace PhasedTests

open Tree.Build

/-- Whether the tree is the word `_`. -/
def Tree.isWildcard (t : Tree) : Bool :=
  t.bareCall? == some "_"

/-- The tags of counts and bounds. -/
def boundTags : List String :=
  ["int", "lvar", "send"]

/-- One end of a range; `any` does not restrict. -/
inductive Bound where
  | any
  | value (bound : Tree)

/-- How often a message must arrive. Both bounds of a range are inclusive. -/
inductive Cardinality where
  | any
  | exact (count : Tree)
  | range (lower upper : Bound)

/-- The word `_`. -/
def wildcard : Tree :=
  call none "_" []

namespace Bound

/-- The bound that a tree stands for. -/
def ofTree (t : Tree) : Bound :=
  if t.isWildcard then any else value t

/-- The written form of a bound. -/
def toTree : Bound → Tree
  | any => wildcard
  | value bound => bound

/-- The bound one below: `upper - 1`, and no restriction for none. -/
def pred : Bound → Bound
  | any => any
  | value bound => value (call (some bound) "-" [int 1])

end Bound

namespace Cardinality

/-- The bound of a range at an index, called `which` in errors. -/
def boundAt (range : Tree) (index : Nat) (which : String) : Except TransformError Bound :=
  match range.nodeAt? index with
  | some bound =>
    if bound.isWildcard || bound.tagIn boundTags then .ok (.ofTree bound)
    else .error (.interactionSyntax (.bound which) (bound.location.or range.location))
  | none => .error (.interactionSyntax (.bound which) range.location)

/-- The range that a parenthesized expression holds. -/
def range? (t : Tree) : Option Tree :=
  match t with
  | .node "begin" [inner] _ => if inner.tagIn ["irange", "erange"] then some inner else none
  | _ => none

/-- The cardinality that the left-hand side of an interaction stands for. -/
def resolve (t : Tree) : Except TransformError Cardinality :=
  if t.isWildcard then .ok .any
  else if t.tagIn boundTags then .ok (.exact t)
  else
    match range? t with
    | none => .error (.interactionSyntax .cardinality t.location)
    | some found => do
      let lower ← boundAt found 0 "Minimum"
      let upper ← boundAt found 1 "Maximum"
      return .range lower (if found.hasTag "erange" then upper.pred else upper)

/-- The written form of a cardinality. -/
def toTree : Cardinality → Tree
  | any => wildcard
  | exact count => count
  | range lower upper => begin [fresh "irange" [lower.toTree, upper.toTree]]

end Cardinality

end PhasedTests
