import PhasedTests.Proofs.SourceMap.Rows

/-!
# Other indentations

Laid out with another indentation a tree has the same lines, of which only the spaces at their
starts differ. The source map looks at the lines of the emitted nodes and at their shapes, so it is
the same for both texts.
-/

namespace PhasedTests

/-- The lines of a span. -/
def Span.onLines (span : Span) : Span :=
  ⟨0, 0, ⟨span.start.line, 0⟩, ⟨span.finish.line, 0⟩⟩

namespace Tree

mutual

/-- The tree with the lines of its spans and nothing else of them. -/
def onLines : Tree → Tree
  | node tag children location => node tag (onLinesAll children) (location.map Span.onLines)
  | leaf value => leaf value

/-- Trees with the lines of their spans and nothing else of them. -/
def onLinesAll : List Tree → List Tree
  | [] => []
  | t :: rest => onLines t :: onLinesAll rest

end

private theorem onLinesAll_eq_map (trees : List Tree) : onLinesAll trees = trees.map onLines := by
  induction trees with
  | nil => rfl
  | cons t trees ih => rw [onLinesAll, List.map_cons, ih]

private theorem isNode_onLines (t : Tree) : t.onLines.isNode = t.isNode := by
  cases t <;> rfl

private theorem location_onLines (t : Tree) : t.onLines.location = t.location.map Span.onLines := by
  cases t <;> rfl

mutual

private theorem bare_onLines : (t : Tree) → t.onLines.bare = t.bare
  | leaf _ => rfl
  | node _ children _ => by rw [onLines, bare, bare, bareAll_onLinesAll children]

private theorem bareAll_onLinesAll : (trees : List Tree) →
    bareAll (onLinesAll trees) = bareAll trees
  | [] => rfl
  | t :: rest => by rw [onLinesAll, bareAll, bareAll, bare_onLines t, bareAll_onLinesAll rest]

end

private theorem dig?_onLines (t : Tree) (path : List Nat) :
    t.onLines.dig? path = (t.dig? path).map onLines := by
  induction path generalizing t with
  | nil => rfl
  | cons index path ih =>
    have hchild : t.onLines.nodeAt? index = (t.nodeAt? index).map onLines := by
      cases t with
      | leaf value => rfl
      | node tag children location =>
        unfold nodeAt?
        rw [onLines, Tree.children, Tree.children, onLinesAll_eq_map, List.getElem?_map]
        cases children[index]? with
        | none => rfl
        | some child =>
          rw [Option.map_some, Option.filter_some, Option.filter_some, isNode_onLines]
          split <;> rfl
    rw [dig?, dig?, hchild]
    cases t.nodeAt? index with
    | none => rfl
    | some child => exact ih child

mutual

private theorem walk_onLines : (t : Tree) →
    t.onLines.walk = t.walk.map fun entry => (entry.1, entry.2.onLines)
  | leaf _ => rfl
  | node tag children location => by
    rw [onLines, walk, walk, List.map_cons, walkAll_onLinesAll children, onLines]

private theorem walkAll_onLinesAll : (trees : List Tree) → (index : Nat) →
    walkAll index (onLinesAll trees) =
      (walkAll index trees).map fun entry => (entry.1, entry.2.onLines)
  | [], _ => rfl
  | t :: rest, index => by
    rw [onLinesAll, walkAll, walkAll, walk_onLines t, walkAll_onLinesAll rest, List.map_append,
      List.map_map, List.map_map]
    rfl

end

mutual

/-- Trees of one shape are looked for alike. -/
theorem findEqual?_congr {a b : Tree} (hshape : a.bare = b.bare) : (t : Tree) →
    findEqual? a t = findEqual? b t
  | leaf _ => rfl
  | node tag children location => by
    have hsame : (node tag children location == a) = (node tag children location == b) := by
      change same _ a = same _ b
      rw [← same_bare _ a, hshape, same_bare]
    rw [findEqual?, findEqual?, hsame, findEqualAll?_congr hshape children]

private theorem findEqualAll?_congr {a b : Tree} (hshape : a.bare = b.bare) : (trees : List Tree) →
    findEqualAll? a trees = findEqualAll? b trees
  | [] => rfl
  | t :: rest => by
    rw [findEqualAll?, findEqualAll?, findEqual?_congr hshape t, findEqualAll?_congr hshape rest]

end

end Tree

namespace SourceMap

private theorem counterpart?_onLines (expanded : Tree) (path : List Nat) (t : Tree) :
    counterpart? expanded path t.onLines = counterpart? expanded path t := by
  unfold counterpart?
  simp only [Tree.findEqual?_congr t.bare_onLines]

private theorem oneLiners_onLines (emitted : Tree) :
    oneLiners emitted.onLines =
      (oneLiners emitted).map fun entry => (entry.1, entry.2.1, entry.2.2.onLines) := by
  unfold oneLiners
  rw [Tree.walk_onLines, List.filterMap_map, List.map_filterMap]
  refine List.filterMap_congr fun ⟨path, t⟩ _ => ?_
  dsimp only [Function.comp_apply]
  rw [Tree.location_onLines]
  cases t.location with
  | none => rfl
  | some span =>
    have hlines : span.onLines.isSingleLine = span.isSingleLine := rfl
    cases hsingle : span.isSingleLine <;> simp only [Option.map_some, hlines, hsingle] <;> rfl

/-- A source map looks at nothing but the lines and the shapes of the emitted nodes. -/
theorem build_onLines (source transformed : String) (expanded emitted : Tree) :
    build source transformed expanded emitted.onLines =
      build source transformed expanded emitted := by
  have hnodes (line : Nat) : sourceLine? expanded (oneLiners emitted.onLines) line =
      sourceLine? expanded (oneLiners emitted) line := by
    unfold sourceLine?
    rw [oneLiners_onLines, List.findSome?_map]
    simp only [Function.comp_def, counterpart?_onLines]
  unfold build
  simp only [hnodes, Tree.location_onLines]
  cases emitted.location <;> rfl

end SourceMap

namespace Tree

variable {indent : Nat}

/-! ## The lines of nodes -/

mutual

/-- The tree with the lines of its nodes when its text starts on this line. -/
def ruled (line : Nat) : Tree → Tree
  | node tag children location =>
    let t := node tag children location
    node tag (ruledAll (.ofMultiline t.isMultiline) line children)
      (some ⟨0, 0, ⟨line, 0⟩, ⟨line + t.breaks, 0⟩⟩)
  | leaf value => leaf value

/-- Children with the lines of their nodes, behind a text that ends on this line. -/
def ruledAll (separation : Separation) (line : Nat) : List Tree → List Tree
  | [] => []
  | t :: rest =>
    let first := line + (separation.step t).breaks
    ruled first t :: ruledAll (separation.step t) (first + t.breaks) rest

end

mutual

/-- With any indentation a tree is read back with the same lines. -/
theorem onLines_placed {text : List Char} : (t : Tree) → t.Readable → (depth : Nat) →
    (before : List Char) → before ++ layoutChars indent depth t <+: text →
    (placed (.ofChars text) indent depth (byteLength before) t).onLines =
      t.ruled (1 + before.count '\n')
  | leaf _, _, _, _, _ => rfl
  | node tag children location, hreadable, depth, before, hbegins => by
    obtain ⟨span, hplace, -, -, hstart, hfinish⟩ :=
      @placed_printed indent depth (node tag children location) rfl _ _ hbegins []
    rw [Printed.lastLine, count_layoutChars _ hreadable] at hfinish
    rw [layoutChars_node, ← List.cons_append, ← List.append_assoc] at hbegins
    have hchildren := onLinesAll_placedAll children
      (fun tag htag => hreadable tag (List.mem_cons_of_mem _ htag)) depth _ _ hbegins
    rw [placed] at hplace ⊢
    obtain rfl := Option.some.inj hplace
    rw [onLines, byteLength_behind_tag, hchildren,
      count_behind_tag (hreadable tag List.mem_cons_self), Option.map_some, Span.onLines, hstart,
      hfinish]
    rfl

private theorem onLinesAll_placedAll {text : List Char} : (trees : List Tree) →
    (∀ tag ∈ tagsAll trees, isTag tag = true) → (depth : Nat) → (separation : Separation) →
    (before : List Char) → before ++ layoutChildren indent depth separation trees <+: text →
    onLinesAll (placedAll (.ofChars text) indent depth separation (byteLength before) trees) =
      ruledAll separation (1 + before.count '\n') trees
  | [], _, _, _, _, _ => rfl
  | t :: rest, hreadable, depth, separation, before, hbegins => by
    have ht : t.Readable := fun tag htag => hreadable tag (List.mem_append_left _ htag)
    rw [layoutChildren, ← List.append_assoc, ← List.append_assoc] at hbegins
    have hfirst := onLines_placed t ht (depth + 1) _ ((List.prefix_append _ _).trans hbegins)
    have hrest := onLinesAll_placedAll rest
      (fun tag htag => hreadable tag (List.mem_append_right _ htag)) depth (separation.step t) _
      hbegins
    rw [List.count_append, count_layoutChars t ht, ← Nat.add_assoc] at hrest
    rw [List.count_append, Separation.count_chars, ← Nat.add_assoc] at hfirst hrest
    rw [placedAll, onLinesAll, ← byteLength_append, ← byteLength_append, hfirst, hrest]
    rfl

end

/-! ## The spaces at the starts of lines -/

/-- The text without the spaces that its lines start with. -/
def withoutIndentation (atStart : Bool) : List Char → List Char
  | [] => []
  | c :: rest =>
    if atStart && c == ' ' then withoutIndentation true rest
    else c :: withoutIndentation (c == '\n') rest

private theorem withoutIndentation_replicate (count : Nat) (rest : List Char) :
    withoutIndentation true (List.replicate count ' ' ++ rest) = withoutIndentation true rest := by
  induction count with
  | zero => rfl
  | succ count ih => exact ih

/-- Within a line all characters stay. -/
private theorem withoutIndentation_append {chars : List Char} (hfeed : '\n' ∉ chars)
    (rest : List Char) :
    withoutIndentation false (chars ++ rest) = chars ++ withoutIndentation false rest := by
  induction chars with
  | nil => rfl
  | cons c chars ih =>
    rw [List.mem_cons, not_or] at hfeed
    have hc : (c == '\n') = false := by simpa using Ne.symm hfeed.1
    rw [List.cons_append, withoutIndentation, Bool.false_and, if_neg (by decide), hc, ih hfeed.2]
    rfl

/-- A line that does not start with a space stays as it is. -/
private theorem withoutIndentation_cons {c : Char} {chars : List Char} (hspace : c ≠ ' ')
    (hfeed : '\n' ∉ c :: chars) (atStart : Bool) (rest : List Char) :
    withoutIndentation atStart (c :: chars ++ rest) =
      c :: chars ++ withoutIndentation false rest := by
  rw [List.mem_cons, not_or] at hfeed
  have hc : (c == '\n') = false := by simpa using Ne.symm hfeed.1
  rw [List.cons_append, withoutIndentation, if_neg (by simp [hspace]), hc,
    withoutIndentation_append hfeed.2]
  rfl

/-- A separator keeps its line feed and loses the indentation. -/
private theorem withoutIndentation_separation (indent depth : Nat) (separation : Separation)
    (rest : List Char) : ∃ atStart,
      withoutIndentation false (separation.chars indent depth ++ rest) =
        separation.chars 0 depth ++ withoutIndentation atStart rest := by
  cases separation with
  | inline => exact ⟨false, rfl⟩
  | head => exact ⟨false, rfl⟩
  | broken =>
    refine ⟨true, ?_⟩
    rw [Separation.chars, Separation.chars, Nat.mul_zero]
    change '\n' :: withoutIndentation true (List.replicate _ ' ' ++ rest) = _
    rw [withoutIndentation_replicate]
    rfl

mutual

/-- Without the spaces at the starts of its lines a text is the one that is not indented. -/
theorem withoutIndentation_layoutChars : (t : Tree) → t.Readable → (depth : Nat) →
    (atStart : Bool) → (rest : List Char) →
    withoutIndentation atStart (layoutChars indent depth t ++ rest) =
      layoutChars 0 depth t ++ withoutIndentation false rest
  | leaf value, _, _, atStart, rest => by
    obtain ⟨c, cs, hchars, hgap, -⟩ := IsTokenText.scalar value
    have hfeed := value.newline_not_mem_inlineChars
    have hspace : c ≠ ' ' := by
      rintro rfl
      cases hgap
    rw [hchars] at hfeed
    rw [layoutChars, layoutChars, hchars]
    exact withoutIndentation_cons hspace hfeed atStart rest
  | node tag children location, hreadable, depth, atStart, rest => by
    have hfeed : '\n' ∉ '(' :: tag.toList := by
      simpa using newline_not_mem_tag (hreadable tag List.mem_cons_self)
    have hchildren := withoutIndentation_layoutChildren children
      (fun tag htag => hreadable tag (List.mem_cons_of_mem _ htag)) depth
      (.ofMultiline (isMultiline (node tag children location))) rest
    rw [layoutChars_node, layoutChars_node, ← List.cons_append, ← List.cons_append,
      List.append_assoc, withoutIndentation_cons (by decide) hfeed, hchildren, List.append_assoc]

private theorem withoutIndentation_layoutChildren : (trees : List Tree) →
    (∀ tag ∈ tagsAll trees, isTag tag = true) → (depth : Nat) → (separation : Separation) →
    (rest : List Char) →
    withoutIndentation false (layoutChildren indent depth separation trees ++ rest) =
      layoutChildren 0 depth separation trees ++ withoutIndentation false rest
  | [], _, _, _, _ => rfl
  | t :: others, hreadable, depth, separation, rest => by
    obtain ⟨atStart, hseparation⟩ := withoutIndentation_separation indent depth
      (separation.step t) (layoutChars indent (depth + 1) t ++
        (layoutChildren indent depth (separation.step t) others ++ rest))
    rw [layoutChildren, layoutChildren, List.append_assoc, List.append_assoc, hseparation,
      withoutIndentation_layoutChars t
        (fun tag htag => hreadable tag (List.mem_append_left _ htag)),
      withoutIndentation_layoutChildren others
        (fun tag htag => hreadable tag (List.mem_append_right _ htag)), List.append_assoc,
      List.append_assoc]

end

private theorem withoutIndentation_layout {t : Tree} (hreadable : t.Readable) :
    withoutIndentation true (t.layout indent).toList = (t.layout 0).toList := by
  rw [layout, layout, String.toList_ofList, String.toList_ofList,
    withoutIndentation_layoutChars t hreadable]
  rfl

/-! ## Emitted texts -/

/-- The lines on which a node that was read starts and ends. -/
def lines? (t : Tree) : Option (Nat × Nat) :=
  t.location.map fun span => (span.start.line, span.finish.line)

private theorem lines?_onLines (t : Tree) : t.onLines.lines? = t.lines? := by
  unfold lines?
  rw [location_onLines, Option.map_map]
  rfl

/-- The emitted text of a tree and the text with another indentation. Read back, a node lies on one
line exactly if it does not break. The children of a node that breaks stand below each other from
its first child node on: each starts on the line after the last line of what precedes it, the node
ends on the last line of its last child, and no two children share a line except for the scalars
before the first child node, which stay on the first line of the node. With both indentations every
node has the same lines, the texts differ only in the spaces at the starts of lines, and the source
maps are the same. -/
theorem readText_layout_lines {t : Tree} (hnode : t.isNode = true) (hreadable : t.Readable)
    (i j : Nat) (path : String) :
    ∃ emitted other, readText path (t.layout i) = .ok emitted ∧
      readText path (t.layout j) = .ok other ∧ emitted.bare = t.bare ∧
      (∀ steps u, emitted.dig? steps = some u → ∃ printed : Printed, printed.node = u ∧
        printed.before ++ printed.own <+: (t.layout i).toList ∧ printed.Placed ∧
        (∀ span, u.location = some span → (span.isSingleLine = true ↔ u.isMultiline = false)) ∧
        (u.isMultiline = true → ∃ parts, printed.Stacked parts ∧
          (parts.dropWhile Printed.isScalar).Pairwise (fun a b => a.lastLine < b.line) ∧
          ∀ a ∈ parts.takeWhile Printed.isScalar, ∀ b ∈ parts.dropWhile Printed.isScalar,
            a.lastLine < b.line)) ∧
      (∀ steps, (emitted.dig? steps).map lines? = (other.dig? steps).map lines?) ∧
      withoutIndentation true (t.layout i).toList = withoutIndentation true (t.layout j).toList ∧
      ∀ source transformed expanded, SourceMap.build source transformed expanded emitted =
        SourceMap.build source transformed expanded other := by
  have hbegins (indent : Nat) : layoutChars indent 0 t <+: (t.layout indent).toList := by
    rw [layout, String.toList_ofList]
    exact List.prefix_append _ _
  have hlines (indent : Nat) :
      (placed (.ofChars (t.layout indent).toList) indent 0 0 t).onLines = t.ruled 1 :=
    onLines_placed t hreadable 0 [] (hbegins indent)
  refine ⟨_, _, readText_layout hnode hreadable path, readText_layout hnode hreadable path,
    bare_placed t 0 0, ?_, ?_, ?_, ?_⟩
  · intro steps u hdig
    have hu := isNode_of_dig? (by rwa [isNode_placed]) hdig
    obtain ⟨printed, hprinted, hwithin, hplaced, hsingle, hstacked⟩ :=
      exists_printed_of_inside hreadable (hbegins i) (inside_of_dig? hdig) hu
    refine ⟨printed, hprinted, hwithin, hplaced, hsingle, fun hmultiline => ?_⟩
    obtain ⟨parts, hparts⟩ := hstacked hmultiline
    exact ⟨parts, hparts, hparts.apart⟩
  · intro steps
    have hsame := congrArg (fun emitted => (emitted.dig? steps).map lines?)
      ((hlines i).trans (hlines j).symm)
    simpa only [dig?_onLines, Option.map_map, Function.comp_def, lines?_onLines] using hsame
  · rw [withoutIndentation_layout hreadable, withoutIndentation_layout hreadable]
  · intro source transformed expanded
    rw [← SourceMap.build_onLines, hlines, ← hlines j, SourceMap.build_onLines]

/-- The lines of a class with a method in it, indented by two and by four spaces. -/
theorem readText_layout_lines_class :
    let sample := node "class" [node "const" [nil, symbol "T"] none, nil,
      node "def" [symbol "m", node "args" [] none, node "int" [int 1] none] none] none
    ∃ emitted other, readText "a.sexp" (sample.layout 2) = .ok emitted ∧
      readText "a.sexp" (sample.layout 4) = .ok other ∧
      (emitted.dig? [2]).map lines? = (other.dig? [2]).map lines? ∧
      SourceMap.build "a.sexp" "b.sexp" sample emitted =
        SourceMap.build "a.sexp" "b.sexp" sample other := by
  intro sample
  have hreadable : sample.Readable := by
    unfold Readable
    decide
  obtain ⟨emitted, other, hemitted, hother, -, -, hlines, -, hmaps⟩ :=
    readText_layout_lines (t := sample) rfl hreadable 2 4 "a.sexp"
  exact ⟨emitted, other, hemitted, hother, hlines [2], hmaps _ _ _⟩

/-- Scalars before the first child node share a line, so not all children of a node that breaks are
apart. -/
theorem not_forall_stacked_pairwise :
    ¬∀ (t : Tree) (indent : Nat) (path : String) (printed : Printed) (parts : List Printed),
      t.isNode = true → t.Readable → readText path (t.layout indent) = .ok printed.node →
        printed.before ++ printed.own <+: (t.layout indent).toList → printed.Placed →
        printed.node.isMultiline = true → printed.Stacked parts →
        parts.Pairwise fun a b => a.lastLine < b.line := by
  intro hall
  let sample := node "casgn" [nil, symbol "A", node "begin" [node "int" [int 1] none] none] none
  have hreadable : sample.Readable := by
    unfold Readable
    decide
  have hread := @readText_layout 2 sample rfl hreadable "a.sexp"
  have hbegins : layoutChars 2 0 sample <+: (sample.layout 2).toList := by
    rw [layout, String.toList_ofList]
    exact List.prefix_append _ _
  let printed : Printed := ⟨[], placed (.ofChars (sample.layout 2).toList) 2 0 (byteLength [])
    sample, [], layoutChars 2 0 sample⟩
  have hplaced : printed.Placed := placed_printed rfl hbegins []
  obtain ⟨parts, hstacked⟩ : ∃ parts, printed.Stacked parts :=
    exists_stacked hreadable rfl hbegins []
  have hpairs := hall sample 2 "a.sexp" printed parts rfl hreadable hread hbegins hplaced rfl
    hstacked
  obtain ⟨a, rest, rfl, ha, hrest⟩ := List.map_eq_cons_iff.mp hstacked.children
  obtain ⟨b, rest, rfl, hb, -⟩ := List.map_eq_cons_iff.mp hrest
  have hscalars : a.isScalar = true ∧ b.isScalar = true := by
    rw [Printed.isScalar, Printed.isScalar, ha, hb]
    exact ⟨rfl, rfl⟩
  have hleading : a ∈ (a :: b :: rest).takeWhile Printed.isScalar ∧
      b ∈ (a :: b :: rest).takeWhile Printed.isScalar := by
    simp [hscalars]
  have haLine := (hstacked.leading a hleading.1).2
  have hbLine := (hstacked.leading b hleading.2).1
  have hlt := (List.pairwise_cons.mp hpairs).1 b List.mem_cons_self
  omega

end Tree

end PhasedTests
