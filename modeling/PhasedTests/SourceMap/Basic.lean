import PhasedTests.Tree.Basic

/-!
# Source maps

Which line of a source a line of its expanded file comes from. The expanded tree still carries
the spans its nodes were read from, and the emitted text, read again, has spans of its own. A line
of the emitted text is answered by the first node on it, in pre-order, whose counterpart in the
expanded tree has a span. The counterpart is the node at the same path, or else an equal node
below the deepest node that the path reaches.
-/

namespace PhasedTests

namespace Tree

mutual

/-- Every node below a tree, the tree included, with its path, in pre-order. -/
def walk : Tree → List (List Nat × Tree)
  | leaf _ => []
  | node tag children location => ([], node tag children location) :: walkAll 0 children

/-- Every node below the trees of a list whose first one has this index. -/
def walkAll (index : Nat) : List Tree → List (List Nat × Tree)
  | [] => []
  | t :: rest => (walk t).map (fun entry => (index :: entry.1, entry.2)) ++ walkAll (index + 1) rest

end

mutual

/-- The first node in pre-order that is equal to `target`. -/
def findEqual? (target : Tree) : Tree → Option Tree
  | leaf _ => none
  | node tag children location =>
    if node tag children location == target then some (node tag children location)
    else findEqualAll? target children

/-- The first equal node below the trees of a list. -/
def findEqualAll? (target : Tree) : List Tree → Option Tree
  | [] => none
  | t :: rest => (findEqual? target t).or (findEqualAll? target rest)

end

/-- How many steps of a path lead to nodes, and the last of these nodes. -/
def deepest (t : Tree) : List Nat → Nat × Tree
  | [] => (0, t)
  | index :: path =>
    match t.nodeAt? index with
    | some child =>
      let (depth, found) := child.deepest path
      (depth + 1, found)
    | none => (0, t)

end Tree

/-- The source lines of the lines of a transformed file, from the first line on. -/
structure SourceMap where
  source : String
  transformed : String
  lines : List (Option Nat)
  deriving DecidableEq, Repr

namespace SourceMap

/-- The number of lines of the transformed file. -/
def lineCount (map : SourceMap) : Nat :=
  map.lines.length

/-- The source line of a line of the transformed file, counted from one. -/
def line? (map : SourceMap) : Nat → Option Nat
  | 0 => none
  | line + 1 => map.lines[line]?.join

/-- The lines of the transformed file with their source lines. -/
def entries (map : SourceMap) : List (Nat × Option Nat) :=
  map.lines.mapIdx fun index source => (index + 1, source)

/-- The counterpart in the expanded tree of the emitted node at a path. -/
def counterpart? (expanded : Tree) (path : List Nat) (emitted : Tree) : Option Tree :=
  match expanded.dig? path with
  | some found => some found
  | none =>
    let (depth, ancestor) := expanded.deepest path.dropLast
    if depth = 0 then none else Tree.findEqual? emitted ancestor

/-- The emitted nodes that lie on one line, with their paths and lines, in pre-order. -/
def oneLiners (emitted : Tree) : List (Nat × List Nat × Tree) :=
  emitted.walk.filterMap fun (path, t) =>
    match t.location with
    | some span => if span.isSingleLine then some (span.start.line, path, t) else none
    | none => none

/-- The source line of one line of the emitted text. -/
def sourceLine? (expanded : Tree) (nodes : List (Nat × List Nat × Tree)) (line : Nat) :
    Option Nat :=
  nodes.findSome? fun (start, path, t) =>
    if start = line then (counterpart? expanded path t).bind Tree.line? else none

/-- The map from an expanded tree and the tree of its emitted text. -/
def build (source transformed : String) (expanded emitted : Tree) : SourceMap :=
  let count := match emitted.location with
    | some span => span.finish.line
    | none => 0
  let nodes := oneLiners emitted
  ⟨source, transformed, (List.range count).map fun n => sourceLine? expanded nodes (n + 1)⟩

end SourceMap

end PhasedTests
