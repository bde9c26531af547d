import PhasedTests.Proofs.Sexp.Placed

/-!
# The nodes of a laid out tree

Every node of a laid out tree has its own text, behind the text of what comes before it. Read again,
the nodes are met at the same paths in the same order, and the span of each is the place of its own
text.
-/

namespace PhasedTests

/-- A node of a laid out tree with its path, the text before it and its own text. -/
structure Printed where
  path : List Nat
  node : Tree
  before : List Char
  own : List Char

namespace Printed

/-- The line on which the node starts, counted from one. -/
def line (printed : Printed) : Nat :=
  1 + printed.before.count '\n'

/-- Whether the node is printed on a single line. -/
def isSingleLine (printed : Printed) : Bool :=
  !printed.own.contains '\n'

/-- The node seen from a node whose child at `index` it lies in. -/
def below (index : Nat) (printed : Printed) : Printed :=
  { printed with path := index :: printed.path }

/-- The place of the node's own text. -/
def span (index : LineIndex) (printed : Printed) : Span :=
  index.span (byteLength printed.before) (byteLength (printed.before ++ printed.own))

end Printed

namespace Tree

mutual

/-- The nodes of a tree that is laid out behind `before`, in pre-order. -/
def printedBehind (indent depth : Nat) (before : List Char) : Tree → List Printed
  | leaf _ => []
  | node tag children location =>
    let t := node tag children location
    ⟨[], t, before, layoutChars indent depth t⟩ ::
      printedAll indent depth (.ofMultiline t.isMultiline) (before ++ '(' :: tag.toList) 0 children

/-- The nodes of children of which the first one has this index. -/
def printedAll (indent depth : Nat) (separation : Separation) (before : List Char) (index : Nat) :
    List Tree → List Printed
  | [] => []
  | t :: rest =>
    let first := before ++ (separation.step t).chars indent depth
    (printedBehind indent (depth + 1) first t).map (Printed.below index) ++
      printedAll indent depth (separation.step t) (first ++ layoutChars indent (depth + 1) t)
        (index + 1) rest

end

/-- The nodes of a laid out tree, in pre-order. -/
def printed (indent : Nat) (t : Tree) : List Printed :=
  printedBehind indent 0 [] t

variable {indent : Nat}

mutual

/-- The printed nodes are those that the walk over the tree meets. -/
theorem walk_eq_printedBehind : (t : Tree) → (depth : Nat) → (before : List Char) →
    (printedBehind indent depth before t).map (fun p => (p.path, p.node)) = t.walk
  | leaf _, _, _ => rfl
  | node tag children location, depth, before => by
    rw [printedBehind, walk, List.map_cons, walkAll_eq_printedAll children]

private theorem walkAll_eq_printedAll : (trees : List Tree) → (depth : Nat) →
    (separation : Separation) → (before : List Char) → (index : Nat) →
    (printedAll indent depth separation before index trees).map (fun p => (p.path, p.node)) =
      walkAll index trees
  | [], _, _, _, _ => rfl
  | t :: rest, depth, separation, before, index => by
    rw [printedAll, walkAll, List.map_append, walkAll_eq_printedAll rest,
      ← walk_eq_printedBehind t (depth + 1) (before ++ (separation.step t).chars indent depth),
      List.map_map, List.map_map]
    rfl

end

/-- The children of a node are read back behind its parenthesis and its tag. -/
theorem byteLength_behind_tag (before : List Char) (tag : String) :
    byteLength before + 1 + byteLength tag.toList = byteLength (before ++ '(' :: tag.toList) := by
  rw [byteLength_append, byteLength, ← Nat.add_assoc]
  rfl

mutual

/-- Read again, every node has the place of its own text. -/
theorem walk_placed {lines : LineIndex} : (t : Tree) → (depth : Nat) → (before : List Char) →
    (placed lines indent depth (byteLength before) t).walk.map (fun e => (e.1, e.2.location)) =
      (printedBehind indent depth before t).map (fun p => (p.path, some (p.span lines)))
  | leaf _, _, _ => rfl
  | node tag children location, depth, before => by
    rw [placed, printedBehind, walk, List.map_cons, List.map_cons, byteLength_behind_tag,
      walkAll_placedAll children, ← byteLength_append]
    rfl

private theorem walkAll_placedAll {lines : LineIndex} : (trees : List Tree) → (depth : Nat) →
    (separation : Separation) → (before : List Char) → (index : Nat) →
    (walkAll index (placedAll lines indent depth separation (byteLength before) trees)).map
        (fun e => (e.1, e.2.location)) =
      (printedAll indent depth separation before index trees).map
        (fun p => (p.path, some (p.span lines)))
  | [], _, _, _, _ => rfl
  | t :: rest, depth, separation, before, index => by
    have hhead := @walk_placed lines t (depth + 1)
      (before ++ (separation.step t).chars indent depth)
    have htail := @walkAll_placedAll lines rest depth (separation.step t)
      (before ++ (separation.step t).chars indent depth ++ layoutChars indent (depth + 1) t)
      (index + 1)
    have hbelow := congrArg (List.map fun e => (index :: e.1, e.2)) hhead
    rw [List.map_map, List.map_map] at hbelow
    rw [byteLength_append, byteLength_append] at htail
    rw [byteLength_append] at hbelow
    rw [placedAll, printedAll, walkAll, List.map_append, List.map_append, htail, List.map_map,
      List.map_map]
    exact congrArg (· ++ _) hbelow

end

/-! ## Texts -/

/-- The text of a node ends with its closing parenthesis. -/
theorem exists_layoutChildren_eq (depth : Nat) (separation : Separation) (trees : List Tree) :
    ∃ body, layoutChildren indent depth separation trees = body ++ [')'] := by
  induction trees generalizing separation with
  | nil => exact ⟨[], rfl⟩
  | cons t rest ih =>
    obtain ⟨body, hbody⟩ := ih (separation.step t)
    refine
      ⟨(separation.step t).chars indent depth ++ (layoutChars indent (depth + 1) t ++ body), ?_⟩
    rw [layoutChildren, hbody, List.append_assoc, List.append_assoc]

mutual

/-- The text before a printed node and its own text start the whole text. -/
theorem prefix_of_mem_printedBehind : (t : Tree) → (depth : Nat) → (before : List Char) →
    ∀ p ∈ printedBehind indent depth before t,
      p.before ++ p.own <+: before ++ layoutChars indent depth t
  | leaf _, _, _, _, hmem => nomatch hmem
  | node tag children location, depth, before, p, hmem => by
    rcases List.mem_cons.mp hmem with rfl | hmem
    · exact List.prefix_rfl
    · have hchild := prefix_of_mem_printedAll children depth _ _ 0 p hmem
      rw [layoutChars_node]
      rw [List.append_assoc, List.cons_append] at hchild
      exact hchild

private theorem prefix_of_mem_printedAll : (trees : List Tree) → (depth : Nat) →
    (separation : Separation) → (before : List Char) → (index : Nat) →
    ∀ p ∈ printedAll indent depth separation before index trees,
      p.before ++ p.own <+: before ++ layoutChildren indent depth separation trees
  | [], _, _, _, _, _, hmem => nomatch hmem
  | t :: rest, depth, separation, before, index, p, hmem => by
    rw [layoutChildren, ← List.append_assoc, ← List.append_assoc]
    rcases List.mem_append.mp hmem with hmem | hmem
    · obtain ⟨inner, hinner, rfl⟩ := List.mem_map.mp hmem
      have hfirst := prefix_of_mem_printedBehind t (depth + 1) _ inner hinner
      exact hfirst.trans (List.prefix_append _ _)
    · exact prefix_of_mem_printedAll rest depth _ _ _ p hmem

end

/-- The text before a printed node and its own text start the emitted text. -/
theorem prefix_layout_of_mem_printed {t : Tree} {p : Printed} (hmem : p ∈ t.printed indent) :
    p.before ++ p.own <+: (t.layout indent).toList := by
  rw [layout, String.toList_ofList]
  exact (prefix_of_mem_printedBehind t 0 [] p hmem).trans (List.prefix_append _ _)

mutual

/-- The text of a printed node ends with its closing parenthesis. -/
theorem own_eq_of_mem_printedBehind : (t : Tree) → (depth : Nat) → (before : List Char) →
    ∀ p ∈ printedBehind indent depth before t, ∃ body, p.own = body ++ [')']
  | leaf _, _, _, _, hmem => nomatch hmem
  | node tag children location, depth, before, p, hmem => by
    rcases List.mem_cons.mp hmem with rfl | hmem
    · obtain ⟨body, hbody⟩ := @exists_layoutChildren_eq indent depth
        (.ofMultiline (isMultiline (node tag children location))) children
      refine ⟨'(' :: (tag.toList ++ body), ?_⟩
      rw [layoutChars_node, hbody, List.cons_append, List.append_assoc]
    · exact own_eq_of_mem_printedAll children depth _ _ 0 p hmem

private theorem own_eq_of_mem_printedAll : (trees : List Tree) → (depth : Nat) →
    (separation : Separation) → (before : List Char) → (index : Nat) →
    ∀ p ∈ printedAll indent depth separation before index trees, ∃ body, p.own = body ++ [')']
  | [], _, _, _, _, _, hmem => nomatch hmem
  | t :: rest, depth, separation, before, index, p, hmem => by
    rcases List.mem_append.mp hmem with hmem | hmem
    · obtain ⟨inner, hinner, rfl⟩ := List.mem_map.mp hmem
      exact own_eq_of_mem_printedBehind t (depth + 1) _ inner hinner
    · exact own_eq_of_mem_printedAll rest depth _ _ _ p hmem

end

end Tree

namespace Printed

/-- The place of a printed node starts on the node's line. -/
theorem line_span {text : List Char} {p : Printed} (hbegins : p.before ++ p.own <+: text) :
    (p.span (.ofChars text)).start.line = p.line := by
  obtain ⟨after, rfl⟩ := hbegins
  rw [List.append_assoc]
  exact LineIndex.line_position p.before (p.own ++ after)

/-- It ends on the line of the closing parenthesis. -/
theorem lastLine_span {text body : List Char} {p : Printed} (hbegins : p.before ++ p.own <+: text)
    (hown : p.own = body ++ [')']) :
    (p.span (.ofChars text)).finish.line = p.line + p.own.count '\n' := by
  obtain ⟨after, rfl⟩ := hbegins
  have hparen : [')'].count '\n' = 0 := rfl
  rw [span, hown, LineIndex.span_closeParen, Position.line_behind, line, List.count_append,
    List.count_append, hparen, Nat.add_zero, Nat.add_assoc]

/-- So it lies on one line if the node is printed on a single line. -/
theorem isSingleLine_span {text body : List Char} {p : Printed}
    (hbegins : p.before ++ p.own <+: text) (hown : p.own = body ++ [')']) :
    (p.span (.ofChars text)).isSingleLine = p.isSingleLine := by
  rw [Span.isSingleLine, line_span hbegins, lastLine_span hbegins hown, isSingleLine,
    Bool.eq_iff_iff, beq_iff_eq, Bool.not_eq_true', ← Bool.not_eq_true, List.contains_iff_mem,
    ← List.count_eq_zero]
  omega

end Printed

end PhasedTests
