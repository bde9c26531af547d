import PhasedTests.Proofs.SourceMap.Printed

/-!
# The lines of a laid out tree

How many line feeds the text of a tree holds does not depend on its indentation: each child that is
separated by a line break has one before it, and no scalar and no tag holds any. So a node lies on
one line exactly if it does not break. The children of a node that breaks stand below each other
from its first child node on, and the scalars before it stay behind the tag.
-/

namespace PhasedTests

/-- A tag never breaks a line. -/
theorem newline_not_mem_tag {tag : String} (htag : isTag tag = true) : '\n' ∉ tag.toList := by
  unfold isTag at htag
  split at htag
  · cases htag
  · rename_i c word hchars
    simp only [Bool.and_eq_true, List.all_eq_true] at htag
    obtain ⟨⟨⟨hstart, hword⟩, -⟩, -⟩ := htag
    rw [hchars]
    intro hmem
    rcases List.mem_cons.mp hmem with rfl | hmem
    · exact absurd hstart (by decide)
    · exact absurd (hword '\n' hmem) (by decide)

/-- A parenthesis and a tag stay on the line. -/
theorem count_behind_tag {tag : String} (htag : isTag tag = true) (before : List Char) :
    (before ++ '(' :: tag.toList).count '\n' = before.count '\n' := by
  rw [List.count_append, List.count_cons_of_ne (by decide),
    List.count_eq_zero.mpr (newline_not_mem_tag htag), Nat.add_zero]

namespace Separation

/-- The line feeds of a separator. -/
def breaks : Separation → Nat
  | broken => 1
  | _ => 0

/-- A separation has as many line feeds as it breaks lines. -/
theorem count_chars (indent depth : Nat) (separation : Separation) :
    (separation.chars indent depth).count '\n' = separation.breaks := by
  cases separation with
  | inline => rfl
  | head => rfl
  | broken => simp [chars, breaks, List.count_replicate]

end Separation

namespace Tree

variable {indent : Nat}

mutual

/-- The line feeds in the text of a tree. -/
def breaks : Tree → Nat
  | node tag children location =>
    breaksAll (.ofMultiline (isMultiline (node tag children location))) children
  | leaf _ => 0

/-- The line feeds in the texts of children and their separators. -/
def breaksAll (separation : Separation) : List Tree → Nat
  | [] => 0
  | t :: rest =>
    (separation.step t).breaks + breaks t + breaksAll (separation.step t) rest

end

mutual

/-- The text of a tree holds as many line feeds at any depth and with any indentation. -/
theorem count_layoutChars : (t : Tree) → t.Readable → (depth : Nat) →
    (layoutChars indent depth t).count '\n' = t.breaks
  | leaf value, _, _ => List.count_eq_zero.mpr value.newline_not_mem_inlineChars
  | node tag children location, hreadable, depth => by
    have htag := List.count_eq_zero.mpr (newline_not_mem_tag (hreadable tag List.mem_cons_self))
    rw [layoutChars_node, breaks, List.count_cons_of_ne (by decide), List.count_append, htag,
      Nat.zero_add]
    exact count_layoutChildren children
      (fun tag htag => hreadable tag (List.mem_cons_of_mem _ htag)) depth _

private theorem count_layoutChildren : (trees : List Tree) →
    (∀ tag ∈ tagsAll trees, isTag tag = true) →
    (depth : Nat) → (separation : Separation) →
    (layoutChildren indent depth separation trees).count '\n' = breaksAll separation trees
  | [], _, _, _ => rfl
  | t :: rest, hreadable, depth, separation => by
    have hfirst := count_layoutChars t
      (fun tag htag => hreadable tag (List.mem_append_left _ htag)) (depth + 1)
    have hrest := count_layoutChildren rest
      (fun tag htag => hreadable tag (List.mem_append_right _ htag)) depth (separation.step t)
    rw [layoutChildren, breaksAll, List.count_append, List.count_append, hfirst, hrest,
      Separation.count_chars, Nat.add_assoc]

end

/-! ## Nodes on one line -/

private theorem isNode_of_isMultiline {t : Tree} (hmultiline : t.isMultiline = true) :
    t.isNode = true := by
  cases t with
  | leaf value => cases hmultiline
  | node => rfl

private theorem any_isNode_of_anyMultiline {trees : List Tree}
    (hmultiline : anyMultiline trees = true) : trees.any isNode = true := by
  induction trees with
  | nil => cases hmultiline
  | cons t rest ih =>
    rw [anyMultiline, Bool.or_eq_true] at hmultiline
    rw [List.any_cons, Bool.or_eq_true]
    exact hmultiline.imp isNode_of_isMultiline ih

/-- A node that breaks has a child node to break before. -/
theorem any_isNode_of_isMultiline {t : Tree} (hmultiline : t.isMultiline = true) :
    t.children.any isNode = true := by
  cases t with
  | leaf value => cases hmultiline
  | node tag children location =>
    rw [isMultiline, Bool.or_eq_true, Bool.and_eq_true] at hmultiline
    exact hmultiline.elim And.right any_isNode_of_anyMultiline

private theorem breaksAll_head_pos {trees : List Tree} (hnode : trees.any isNode = true) :
    0 < breaksAll .head trees := by
  induction trees with
  | nil => cases hnode
  | cons t rest ih =>
    cases t with
    | leaf value => simpa [breaksAll, Separation.step, Separation.breaks, breaks] using ih hnode
    | node tag children location =>
      simp only [breaksAll, Separation.step, Separation.breaks]
      omega

mutual

private theorem breaks_eq_zero : (t : Tree) → t.isMultiline = false → t.breaks = 0
  | leaf _, _ => rfl
  | node tag children location, hinline => by
    rw [breaks, hinline]
    rw [isMultiline, Bool.or_eq_false_iff] at hinline
    exact breaksAll_inline_eq_zero children hinline.2

private theorem breaksAll_inline_eq_zero : (trees : List Tree) → anyMultiline trees = false →
    breaksAll .inline trees = 0
  | [], _ => rfl
  | t :: rest, hinline => by
    rw [anyMultiline, Bool.or_eq_false_iff] at hinline
    rw [breaksAll, breaks_eq_zero t hinline.1]
    change 0 + 0 + breaksAll .inline rest = 0
    rw [breaksAll_inline_eq_zero rest hinline.2]

end

/-- A tree holds a line feed exactly if it breaks. -/
theorem breaks_pos_iff {t : Tree} : 0 < t.breaks ↔ t.isMultiline = true := by
  cases hmultiline : t.isMultiline with
  | false => simp [breaks_eq_zero t hmultiline]
  | true =>
    refine iff_of_true ?_ rfl
    have hchild := any_isNode_of_isMultiline hmultiline
    cases t with
    | leaf value => cases hmultiline
    | node tag children location =>
      rw [breaks, hmultiline]
      exact breaksAll_head_pos hchild

/-! ## Children below each other -/

/-- The children of a node as they are read back, each with the text before it and its own text,
where the first one has this index and its separator stands behind `before`. -/
def printedChildren (lines : LineIndex) (indent depth : Nat) (separation : Separation)
    (before : List Char) (index : Nat) : List Tree → List Printed
  | [] => []
  | t :: rest =>
    let first := before ++ (separation.step t).chars indent depth
    ⟨[index], placed lines indent (depth + 1) (byteLength first) t, first,
        layoutChars indent (depth + 1) t⟩ ::
      printedChildren lines indent depth (separation.step t)
        (first ++ layoutChars indent (depth + 1) t) (index + 1) rest

end Tree

namespace Printed

/-- The line on which the node ends. -/
def lastLine (printed : Printed) : Nat :=
  printed.line + printed.own.count '\n'

/-- Whether a child is a scalar, which has no place when it is read back. -/
def isScalar (printed : Printed) : Bool :=
  !printed.node.isNode

/-- Behind `front` stand these children, each behind a gap, and a closing parenthesis, and there
the text ends. -/
def InRow (front : List Char) : List Printed → List Char → Prop
  | [], text => text = front ++ [')']
  | part :: rest, text =>
    (∃ gap, (∀ c ∈ gap, Scan.isGapChar c = true) ∧ part.before = front ++ gap) ∧
      InRow (part.before ++ part.own) rest text

/-- The node is read back with the place of its own text: its bytes and its lines. -/
def Placed (printed : Printed) : Prop :=
  ∃ span, printed.node.location = some span ∧ span.first = byteLength printed.before ∧
    span.stop = byteLength (printed.before ++ printed.own) ∧ span.start.line = printed.line ∧
    span.finish.line = printed.lastLine

/-- How the children of a node that breaks stand in its text. -/
structure Stacked (printed : Printed) (parts : List Printed) : Prop where
  /-- The text of the node is a parenthesis, the tag, and the children one behind the other. -/
  text : InRow (printed.before ++ '(' :: printed.node.tag.toList) parts
    (printed.before ++ printed.own)
  /-- These are the children that are read back: scalars by their written form, nodes by their
  places. -/
  children : parts.map Printed.node = printed.node.children
  scalars : ∀ part ∈ parts, ∀ value, part.node = .leaf value → part.own = value.inlineChars
  nodes : ∀ part ∈ parts, part.node.isNode = true → part.Placed
  /-- The scalars before the first child node stay on the first line. -/
  leading : ∀ part ∈ parts.takeWhile isScalar,
    part.line = printed.line ∧ part.lastLine = printed.line
  /-- The first child node starts on the next line, and every later child on the line after the
  last line of the child before it. -/
  first : ∀ part ∈ (parts.dropWhile isScalar).head?, part.line = printed.line + 1
  next : (parts.dropWhile isScalar).IsChain fun a b => b.line = a.lastLine + 1
  /-- The node ends on the last line of its last child. -/
  last : ∀ part ∈ parts.getLast?, part.lastLine = printed.lastLine

variable {printed : Printed} {parts : List Printed}

/-- A text that ends behind a row of children ends behind the last of them. -/
theorem InRow.eq_of_getLast? {front text : List Char} (hrow : InRow front parts text)
    {part : Printed} (hpart : part ∈ parts.getLast?) :
    text = part.before ++ part.own ++ [')'] := by
  induction parts generalizing front with
  | nil => cases hpart
  | cons first rest ih =>
    cases rest with
    | nil =>
      obtain rfl : first = part := Option.some.inj hpart
      exact hrow.2
    | cons second rest =>
      exact ih hrow.2 (by rwa [List.getLast?_cons_cons] at hpart)

/-- A node lies on one line if its text does. -/
theorem Placed.isSingleLine_iff (hplaced : printed.Placed) {span : Span}
    (hlocation : printed.node.location = some span) :
    span.isSingleLine = true ↔ printed.own.count '\n' = 0 := by
  obtain ⟨_, hplace, -, -, hstart, hfinish⟩ := hplaced
  obtain rfl := Option.some.inj (hplace.symm.trans hlocation)
  rw [Span.isSingleLine, beq_iff_eq, hstart, hfinish, lastLine]
  omega

private theorem line_le_lastLine (printed : Printed) : printed.line ≤ printed.lastLine :=
  Nat.le_add_right _ _

/-- From the first child node on no two children share a line, and none shares one with the scalars
before it. -/
theorem Stacked.apart (hstacked : Stacked printed parts) :
    (parts.dropWhile isScalar).Pairwise (fun a b => a.lastLine < b.line) ∧
      ∀ a ∈ parts.takeWhile isScalar, ∀ b ∈ parts.dropWhile isScalar, a.lastLine < b.line := by
  let above := fun a b : Printed => a.lastLine < b.line
  have _ : Trans above above above := ⟨fun {a b c} hab hbc =>
    Nat.lt_of_lt_of_le hab ((line_le_lastLine b).trans (Nat.le_of_lt hbc))⟩
  have hpairs : (parts.dropWhile isScalar).Pairwise above := by
    refine List.isChain_iff_pairwise.mp (hstacked.next.imp fun a b hline => ?_)
    change a.lastLine < b.line
    omega
  refine ⟨hpairs, fun a ha b hb => ?_⟩
  have hlast := (hstacked.leading a ha).2
  have hfirst := hstacked.first
  cases hstack : parts.dropWhile isScalar with
  | nil =>
    rw [hstack] at hb
    cases hb
  | cons first rest =>
    rw [hstack] at hb hpairs hfirst
    have hline := hfirst first rfl
    rcases List.mem_cons.mp hb with rfl | hb
    · omega
    · have hbelow : first.lastLine < b.line := (List.pairwise_cons.mp hpairs).1 b hb
      have hle := line_le_lastLine first
      omega

end Printed

namespace Tree

variable {lines : LineIndex} {indent depth : Nat}

private theorem map_node_printedChildren (separation : Separation) (before : List Char)
    (index : Nat)
    (trees : List Tree) :
    (printedChildren lines indent depth separation before index trees).map Printed.node =
      placedAll lines indent depth separation (byteLength before) trees := by
  induction trees generalizing separation before index with
  | nil => rfl
  | cons t rest ih =>
    rw [printedChildren, List.map_cons, placedAll, ih, byteLength_append _ (layoutChars _ _ t),
      byteLength_append]

private theorem inRow_printedChildren (separation : Separation) (before : List Char) (index : Nat)
    (trees : List Tree) :
    Printed.InRow before (printedChildren lines indent depth separation before index trees)
      (before ++ layoutChildren indent depth separation trees) := by
  induction trees generalizing separation before index with
  | nil => rfl
  | cons t rest ih =>
    refine ⟨⟨_, fun c hmem => isGapChar_of_mem_separation hmem, rfl⟩, ?_⟩
    have hrest := ih (separation.step t)
      (before ++ (separation.step t).chars indent depth ++ layoutChars indent (depth + 1) t)
      (index + 1)
    rw [layoutChildren, ← List.append_assoc, ← List.append_assoc]
    exact hrest

/-- Every child is read back from its own text, which lies in the text of its node. -/
theorem mem_printedChildren (separation : Separation) (before : List Char) (index : Nat)
    (trees : List Tree) :
    ∀ part ∈ printedChildren lines indent depth separation before index trees, ∃ t ∈ trees,
      part.node = placed lines indent (depth + 1) (byteLength part.before) t ∧
        part.own = layoutChars indent (depth + 1) t ∧
        part.before ++ part.own <+: before ++ layoutChildren indent depth separation trees := by
  induction trees generalizing separation before index with
  | nil => exact List.forall_mem_nil _
  | cons t rest ih =>
    rw [layoutChildren, ← List.append_assoc, ← List.append_assoc]
    refine List.forall_mem_cons.mpr
      ⟨⟨t, List.mem_cons_self, rfl, rfl, List.prefix_append _ _⟩, fun part hpart => ?_⟩
    obtain ⟨child, hchild, hrest⟩ := ih _ _ _ part hpart
    exact ⟨child, List.mem_cons_of_mem t hchild, hrest⟩

/-- A node is read back with the place of its own text. -/
theorem placed_printed {t : Tree} (hnode : t.isNode = true) {text before : List Char}
    (hbegins : before ++ layoutChars indent depth t <+: text) (path : List Nat) :
    (⟨path, placed (.ofChars text) indent depth (byteLength before) t, before,
      layoutChars indent depth t⟩ : Printed).Placed := by
  cases t with
  | leaf value => cases hnode
  | node tag children location =>
    let t := node tag children location
    let p : Printed := ⟨[], t, before, layoutChars indent depth t⟩
    obtain ⟨body, hown⟩ := own_eq_of_mem_printedBehind t depth before p List.mem_cons_self
    refine ⟨p.span (.ofChars text), ?_, rfl, rfl, Printed.line_span hbegins,
      Printed.lastLine_span hbegins hown⟩
    rw [placed, ← byteLength_append]
    rfl

/-- Children with lines of their own stand below each other. -/
private theorem stacked_broken (before : List Char) (index : Nat) (trees : List Tree) :
    (∀ part ∈ (printedChildren lines indent depth .broken before index trees).head?,
      part.line = 1 + before.count '\n' + 1) ∧
      (printedChildren lines indent depth .broken before index trees).IsChain
        fun a b => b.line = a.lastLine + 1 := by
  induction trees generalizing before index with
  | nil => exact ⟨nofun, .nil⟩
  | cons t rest ih =>
    have hstep : Separation.broken.step t = .broken := rfl
    obtain ⟨hfirst, hnext⟩ := ih
      (before ++ Separation.broken.chars indent depth ++ layoutChars indent (depth + 1) t)
      (index + 1)
    rw [printedChildren, hstep]
    refine ⟨fun part hpart => ?_, List.isChain_cons.mpr ⟨fun part hpart => ?_, hnext⟩⟩
    · obtain rfl := Option.some.inj hpart
      rw [Printed.line, List.count_append, Separation.count_chars, Separation.breaks, Nat.add_assoc]
    · rw [hfirst part hpart, List.count_append, ← Nat.add_assoc]
      rfl

/-- Up to the first child node children stay on the line, and from then on they stand below each
other. -/
private theorem stacked_head (before : List Char) (index : Nat) (trees : List Tree) :
    let parts := printedChildren lines indent depth .head before index trees
    (∀ part ∈ parts.takeWhile Printed.isScalar, part.line = 1 + before.count '\n' ∧
        part.lastLine = 1 + before.count '\n') ∧
      (∀ part ∈ (parts.dropWhile Printed.isScalar).head?,
        part.line = 1 + before.count '\n' + 1) ∧
      (parts.dropWhile Printed.isScalar).IsChain fun a b => b.line = a.lastLine + 1 := by
  induction trees generalizing before index with
  | nil => exact ⟨nofun, nofun, .nil⟩
  | cons t rest ih =>
    cases t with
    | leaf value =>
      have hown := List.count_eq_zero.mpr value.newline_not_mem_inlineChars
      have hspace : (before ++ [' ']).count '\n' = before.count '\n' := by
        rw [List.count_append]
        rfl
      obtain ⟨hleading, hstack⟩ := ih (before ++ [' '] ++ value.inlineChars) (index + 1)
      rw [List.count_append, hspace, hown, Nat.add_zero] at hleading hstack
      refine ⟨List.forall_mem_cons.mpr ⟨⟨congrArg (1 + ·) hspace, ?_⟩, hleading⟩, hstack⟩
      change 1 + (before ++ [' ']).count '\n' + value.inlineChars.count '\n' = _
      rw [hspace, hown, Nat.add_zero]
    | node tag children location =>
      exact ⟨nofun, stacked_broken before index (node tag children location :: rest)⟩

/-- The children of a node that breaks are read back below each other. -/
theorem exists_stacked {t : Tree} (hreadable : t.Readable) (hmultiline : t.isMultiline = true)
    {text before : List Char} (hbegins : before ++ layoutChars indent depth t <+: text)
    (path : List Nat) :
    ∃ parts, Printed.Stacked ⟨path, placed (.ofChars text) indent depth (byteLength before) t,
      before, layoutChars indent depth t⟩ parts := by
  cases t with
  | leaf value => cases hmultiline
  | node tag children location =>
    have hown : layoutChars indent depth (node tag children location) =
        '(' :: (tag.toList ++ layoutChildren indent depth .head children) := by
      rw [layoutChars_node, hmultiline]
      rfl
    have hrow := @inRow_printedChildren (.ofChars text) indent depth .head
      (before ++ '(' :: tag.toList) 0 children
    obtain ⟨hleading, hfirst, hnext⟩ :=
      @stacked_head (.ofChars text) indent depth (before ++ '(' :: tag.toList) 0 children
    have hparts := @mem_printedChildren (.ofChars text) indent depth .head
      (before ++ '(' :: tag.toList) 0 children
    rw [count_behind_tag (hreadable tag List.mem_cons_self)] at hleading hfirst
    rw [List.append_assoc, List.cons_append, ← hown] at hrow hparts
    refine ⟨printedChildren (.ofChars text) indent depth .head (before ++ '(' :: tag.toList) 0
      children, hrow, ?_, ?_, ?_, hleading, hfirst, hnext, ?_⟩
    · rw [map_node_printedChildren, placed, hmultiline, byteLength_behind_tag]
      rfl
    · intro part hpart value hvalue
      obtain ⟨child, -, hnode, hown, -⟩ := hparts part hpart
      rw [hvalue] at hnode
      cases child with
      | leaf other =>
        obtain rfl : value = other := leaf.inj hnode
        exact hown
      | node => cases hnode
    · intro part hpart hpartNode
      obtain ⟨child, -, hnode, hown, hwithin⟩ := hparts part hpart
      rw [hnode, isNode_placed] at hpartNode
      rw [hown] at hwithin
      have hplaced := placed_printed hpartNode (hwithin.trans hbegins) part.path
      rwa [← hnode, ← hown] at hplaced
    · intro part hpart
      have htext := congrArg (List.count '\n') (hrow.eq_of_getLast? hpart)
      have hparen : [')'].count '\n' = 0 := rfl
      rw [List.count_append, List.count_append, List.count_append, hparen] at htext
      simp only [Printed.lastLine, Printed.line]
      omega

/-! ## The nodes that are read back -/

/-- Every node that is read back is read from its own text, a node of the tree. -/
theorem exists_of_inside_placed {u v : Tree} (hinside : Inside u v) :
    ∀ (t : Tree) (depth : Nat) (before : List Char),
      v = placed lines indent depth (byteLength before) t → ∃ own inner front,
        Inside own t ∧ u = placed lines indent inner (byteLength front) own ∧
          front ++ layoutChars indent inner own <+: before ++ layoutChars indent depth t := by
  induction hinside with
  | self =>
    intro t depth before hplaced
    exact ⟨t, depth, before, .self t, hplaced, List.prefix_rfl⟩
  | @child c tag children location hmem hinside ih =>
    intro t depth before hplaced
    cases t with
    | leaf value => cases hplaced
    | node tag' children' location' =>
      rw [placed, byteLength_behind_tag] at hplaced
      obtain ⟨-, rfl, -⟩ := Tree.node.inj hplaced
      rw [← map_node_printedChildren _ _ 0] at hmem
      obtain ⟨part, hpart, rfl⟩ := List.mem_map.mp hmem
      obtain ⟨inner, hinner, hchild, hpartOwn, hbegins⟩ := mem_printedChildren _ _ _ _ part hpart
      obtain ⟨own, innermost, front, hown, hplaced, hwithin⟩ :=
        ih inner (depth + 1) part.before hchild
      rw [hpartOwn, List.append_assoc, List.cons_append, ← layoutChars_node] at hbegins
      exact ⟨own, innermost, front, .child hinner hown, hplaced, hwithin.trans hbegins⟩

/-- Every node that is read back has the place of its own text and lies on one line exactly if it
does not break. If it breaks, its children stand below each other. -/
theorem exists_printed_of_inside {t u : Tree} {text : List Char} (hreadable : t.Readable)
    (hbegins : layoutChars indent 0 t <+: text)
    (hinside : Inside u (placed (.ofChars text) indent 0 0 t)) (hnode : u.isNode = true) :
    ∃ printed : Printed, printed.node = u ∧ printed.before ++ printed.own <+: text ∧
      printed.Placed ∧
      (∀ span, u.location = some span → (span.isSingleLine = true ↔ u.isMultiline = false)) ∧
      (u.isMultiline = true → ∃ parts, printed.Stacked parts) := by
  obtain ⟨own, depth, front, hown, rfl, hwithin⟩ := exists_of_inside_placed hinside t 0 [] rfl
  have hownReadable := hreadable.of_inside hown
  have hownBegins := hwithin.trans hbegins
  rw [isNode_placed] at hnode
  have hplaced := placed_printed hnode hownBegins []
  have hmultiline (lines : LineIndex) :
      (placed lines indent depth (byteLength front) own).isMultiline = own.isMultiline := by
    rw [← isMultiline_bare, bare_placed, isMultiline_bare]
  refine ⟨_, rfl, hownBegins, hplaced, fun span hlocation => ?_, fun hbreaks => ?_⟩
  · rw [hplaced.isSingleLine_iff hlocation, hmultiline, count_layoutChars own hownReadable,
      ← Bool.not_eq_true, ← breaks_pos_iff, Nat.not_lt, Nat.le_zero]
  · rw [hmultiline] at hbreaks
    exact exists_stacked hownReadable hbreaks hownBegins []

end Tree

end PhasedTests
