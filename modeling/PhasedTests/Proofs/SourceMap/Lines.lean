import PhasedTests.Proofs.Expansion.Readable
import PhasedTests.Proofs.SourceMap.Printed

/-!
# What a source map says

The emitted text of an expanded tree, read again, has the nodes of that tree at their paths. So the
counterpart of an emitted node is always the node at its path, and a line of the emitted text is
answered by the first node printed on that line alone that was read from the source.
-/

namespace PhasedTests

namespace SourceMap

/-- A path that reaches a node of the expanded tree leads to the counterpart. -/
theorem counterpart?_of_dig? {expanded emitted found : Tree} {path : List Nat}
    (hdig : expanded.dig? path = some found) :
    counterpart? expanded path emitted = some found := by
  unfold counterpart?
  rw [hdig]

/-- The paths of the tree that is read back are the paths of the tree that was laid out. -/
private theorem map_path_walk_placed (lines : LineIndex) (indent : Nat) (t : Tree) :
    (Tree.placed lines indent 0 0 t).walk.map Prod.fst = t.walk.map Prod.fst := by
  have hplaces := congrArg (List.map Prod.fst) (@Tree.walk_placed indent lines t 0 [])
  have hnodes := congrArg (List.map Prod.fst) (@Tree.walk_eq_printedBehind indent t 0 [])
  rw [List.map_map, List.map_map] at hplaces
  rw [List.map_map] at hnodes
  exact hplaces.trans hnodes

/-- Every node that is read back stands at the path of a node of the expanded tree. -/
theorem exists_dig?_of_mem_walk_placed {lines : LineIndex} {indent : Nat} {t : Tree}
    {entry : List Nat × Tree} (hmem : entry ∈ (Tree.placed lines indent 0 0 t).walk) :
    ∃ found, t.dig? entry.1 = some found ∧ found.isNode = true := by
  have hpath : entry.1 ∈ (Tree.placed lines indent 0 0 t).walk.map Prod.fst :=
    List.mem_map_of_mem hmem
  rw [map_path_walk_placed] at hpath
  obtain ⟨other, hother, hsame⟩ := List.mem_map.mp hpath
  have hdig := Tree.dig?_of_mem_walk t other hother
  rw [hsame] at hdig
  exact ⟨other.2, hdig, Tree.isNode_of_dig? (Tree.isNode_of_mem_walk hother) hdig⟩

/-- What the node at a path contributes to a line, given the span that it is read back with. -/
private def answer (expanded : Tree) (line : Nat) (entry : List Nat × Option Span) : Option Nat :=
  entry.2.bind fun span =>
    if span.isSingleLine && span.start.line == line then
      (expanded.dig? entry.1).bind Tree.line?
    else none

/-- A node that is read back contributes what its counterpart at the same path does. -/
private theorem answer_of_mem_walk {lines : LineIndex} {indent line : Nat} {t : Tree}
    {entry : List Nat × Tree} (hmem : entry ∈ (Tree.placed lines indent 0 0 t).walk) :
    ((match entry.2.location with
      | some span => if span.isSingleLine then some (span.start.line, entry.1, entry.2) else none
      | none => none : Option (Nat × List Nat × Tree)).bind fun one =>
        if one.1 = line then (counterpart? t one.2.1 one.2.2).bind Tree.line? else none) =
      answer t line (entry.1, entry.2.location) := by
  obtain ⟨found, hdig, -⟩ := exists_dig?_of_mem_walk_placed hmem
  unfold answer
  cases entry.2.location with
  | none => rfl
  | some span =>
    by_cases hsingle : span.isSingleLine = true
    · simp [hsingle, hdig, counterpart?_of_dig? hdig]
    · simp [hsingle]

/-- A printed node contributes its source line to the line that it is printed on alone. -/
private theorem answer_of_mem_printed {indent line : Nat} {t : Tree} {p : Printed}
    (hmem : p ∈ t.printed indent) :
    answer t line (p.path, some (p.span (.ofChars (t.layout indent).toList))) =
      if p.isSingleLine && p.line == line then p.node.line? else none := by
  have hbegins := Tree.prefix_layout_of_mem_printed hmem
  obtain ⟨body, hown⟩ := Tree.own_eq_of_mem_printedBehind t 0 [] p hmem
  have hwalk : (p.path, p.node) ∈ t.walk := by
    rw [← @Tree.walk_eq_printedBehind indent t 0 []]
    exact List.mem_map_of_mem hmem
  have hdig : t.dig? p.path = some p.node := Tree.dig?_of_mem_walk t _ hwalk
  unfold answer
  rw [Option.bind_some, Printed.isSingleLine_span hbegins hown, Printed.line_span hbegins, hdig,
    Option.bind_some]

/-- The source line of a line of the emitted text is that of the first node printed on this line
alone that has a source line. -/
theorem sourceLine?_placed (indent : Nat) (t : Tree) (line : Nat) :
    sourceLine? t (oneLiners (Tree.placed (.ofChars (t.layout indent).toList) indent 0 0 t)) line =
      ((t.printed indent).filter fun p => p.isSingleLine && p.line == line).findSome?
        fun p => p.node.line? := by
  let lines := LineIndex.ofChars (t.layout indent).toList
  calc sourceLine? t (oneLiners (Tree.placed lines indent 0 0 t)) line
      = ((Tree.placed lines indent 0 0 t).walk.filterMap fun entry =>
          answer t line (entry.1, entry.2.location)).head? := by
        unfold sourceLine? oneLiners
        rw [← List.head?_filterMap, List.filterMap_filterMap]
        exact congrArg List.head? (List.filterMap_congr fun entry hmem => answer_of_mem_walk hmem)
    _ = (((t.printed indent).map fun p => (p.path, some (p.span lines))).filterMap
          (answer t line)).head? := by
        have hplaces := @Tree.walk_placed indent lines t 0 []
        rw [Tree.printed, ← hplaces, List.filterMap_map]
        rfl
    _ = ((t.printed indent).filterMap fun p =>
          if p.isSingleLine && p.line == line then p.node.line? else none).head? := by
        rw [List.filterMap_map]
        exact congrArg List.head? (List.filterMap_congr fun p hmem => answer_of_mem_printed hmem)
    _ = _ := by rw [← List.head?_filterMap, List.filterMap_filter]

/-- The tree that is read back ends on the last line of the emitted text. -/
theorem lineCount_build_placed {source transformed : String} {indent : Nat} {t : Tree}
    (hnode : t.isNode = true) :
    (build source transformed t
      (Tree.placed (.ofChars (t.layout indent).toList) indent 0 0 t)).lineCount =
      (t.layout indent).toList.count '\n' := by
  cases t with
  | leaf value => cases hnode
  | node tag children location =>
    let root : Printed :=
      ⟨[], .node tag children location, [], (Tree.node tag children location).layoutChars indent 0⟩
    have hmem : root ∈ (Tree.node tag children location).printed indent := List.mem_cons_self
    obtain ⟨body, hown⟩ := Tree.own_eq_of_mem_printedBehind _ 0 [] root hmem
    have htext : ((Tree.node tag children location).layout indent).toList = root.own ++ ['\n'] := by
      rw [Tree.layout, String.toList_ofList]
    have hbegins : root.before ++ root.own <+: root.own ++ ['\n'] :=
      List.prefix_append root.own ['\n']
    have hlast := Printed.lastLine_span hbegins hown
    have hfeed : ['\n'].count '\n' = 1 := rfl
    have hline : root.line = 1 := rfl
    have hplace (lines : LineIndex) : (Tree.placed lines indent 0 0
        (.node tag children location)).location = some (root.span lines) := by
      rw [Tree.placed, Tree.location, Nat.zero_add]
      rfl
    rw [htext, List.count_append, hfeed, Nat.add_comm, ← hline, ← hlast]
    unfold build lineCount
    rw [List.length_map, List.length_range, hplace]

/-- The keys of a source map count the lines from one. -/
theorem keys_entries (map : SourceMap) :
    map.entries.map Prod.fst = List.range' 1 map.lineCount := by
  apply List.ext_getElem
  · simp [entries, lineCount]
  · intro n hleft hright
    simp [entries, Nat.add_comm]

/-- A line of the map is answered by the first emitted node on it whose counterpart has a line. -/
theorem line?_build {source transformed : String} {expanded emitted : Tree} {line : Nat}
    (hfirst : 1 ≤ line)
    (hlast : line ≤ (build source transformed expanded emitted).lineCount) :
    (build source transformed expanded emitted).line? line =
      sourceLine? expanded (oneLiners emitted) line := by
  obtain ⟨n, rfl⟩ := Nat.exists_eq_add_of_le' hfirst
  unfold build lineCount at hlast
  rw [List.length_map, List.length_range] at hlast
  unfold build line?
  dsimp only
  rw [List.getElem?_map, List.getElem?_range (by omega)]
  rfl

end SourceMap

/-- Lines are mapped back as soon as the emitted text can be read. -/
theorem Pipeline.mapEmitted_of_readText {source transformed text : String} {expanded emitted : Tree}
    (hread : readText transformed text = .ok emitted) :
    mapEmitted source transformed expanded text =
      .ok ⟨text, SourceMap.build source transformed expanded emitted⟩ := by
  unfold mapEmitted
  rw [hread]
  rfl

/-- The emitted text of an expanded file can always be read again, as the laid out tree. -/
theorem Pipeline.transformSource_of_expandText {pipeline : Pipeline}
    {source transformed text : String} {expanded : Tree}
    (hdone : pipeline.expandText source text = .ok expanded) :
    pipeline.transformSource source transformed text =
      .ok ⟨expanded.layout pipeline.indent, SourceMap.build source transformed expanded
        (Tree.placed (.ofChars (expanded.layout pipeline.indent).toList) pipeline.indent 0 0
          expanded)⟩ := by
  have hread := @Tree.readText_layout pipeline.indent expanded (isNode_of_expandText hdone)
    (readable_of_expandText hdone) transformed
  unfold transformSource
  rw [hdone]
  exact mapEmitted_of_readText hread

/-- The meaning of the source map of an expanded file. Every node of the emitted text stands at the
path of a node of the expanded tree, which is its counterpart. The map has exactly the lines of the
emitted text as keys, and a line is mapped to the source line of the first node, in pre-order, that
is printed on this line alone and was read from the source. -/
theorem Pipeline.map_of_transformSource {mode : Mode} {indent : Nat}
    {source transformed text : String} {mapped : Mapped}
    (hdone : (Pipeline.standard mode indent).transformSource source transformed text = .ok mapped) :
    ∃ expanded emitted,
      (Pipeline.standard mode indent).expandText source text = .ok expanded ∧
      mapped.text = expanded.layout indent ∧
      readText transformed mapped.text = .ok emitted ∧
      (∀ entry ∈ emitted.walk, ∃ found, expanded.dig? entry.1 = some found ∧
        found.isNode = true ∧ SourceMap.counterpart? expanded entry.1 entry.2 = some found) ∧
      mapped.map.entries.map Prod.fst = List.range' 1 mapped.map.lineCount ∧
      mapped.map.lineCount = mapped.text.toList.count '\n' ∧
      (expanded.printed indent).map (fun p => (p.path, p.node)) = expanded.walk ∧
      (∀ p ∈ expanded.printed indent, p.before ++ p.own <+: mapped.text.toList) ∧
      ∀ line, 1 ≤ line → line ≤ mapped.map.lineCount →
        mapped.map.line? line =
          ((expanded.printed indent).filter fun p => p.isSingleLine && p.line == line).findSome?
            fun p => p.node.line? := by
  obtain ⟨expanded, hexpanded, hmap⟩ := ok_of_bind hdone
  have hnode := isNode_of_expandText hexpanded
  have hreadable := readable_of_expandText hexpanded
  have hread := @Tree.readText_layout indent expanded hnode hreadable transformed
  obtain ⟨emitted, hemitted, hpure⟩ := ok_of_bind hmap
  obtain rfl := Except.ok.inj (hread.symm.trans (ok_of_mapError hemitted))
  obtain rfl := Except.ok.inj hpure
  refine ⟨expanded, _, hexpanded, rfl, hread, ?_, SourceMap.keys_entries _,
    SourceMap.lineCount_build_placed hnode, Tree.walk_eq_printedBehind expanded 0 [], ?_, ?_⟩
  · intro entry hmem
    obtain ⟨found, hdig, hfound⟩ := SourceMap.exists_dig?_of_mem_walk_placed hmem
    exact ⟨found, hdig, hfound, SourceMap.counterpart?_of_dig? hdig⟩
  · intro p hmem
    exact Tree.prefix_layout_of_mem_printed hmem
  · intro line hfirst hlast
    exact (SourceMap.line?_build hfirst hlast).trans (SourceMap.sourceLine?_placed _ _ _)

/-- The source map of two calls in a row, each printed on a line of its own. -/
theorem Pipeline.map_of_transformSource_calls :
    let text := (Tree.node "begin" [.node "send" [.nil, .symbol "a"] none,
      .node "send" [.nil, .symbol "b"] none] none).layout 2
    ∃ (mapped : Mapped) (expanded : Tree),
      (Pipeline.standard .strict 2).transformSource "a.sexp" "b.sexp" text = .ok mapped ∧
      mapped.text = expanded.layout 2 ∧
      mapped.map.lineCount = mapped.text.toList.count '\n' ∧
      ∀ line, 1 ≤ line → line ≤ mapped.map.lineCount →
        mapped.map.line? line =
          ((expanded.printed 2).filter fun p => p.isSingleLine && p.line == line).findSome?
            fun p => p.node.line? := by
  let sample := Tree.node "begin" [.node "send" [.nil, .symbol "a"] none,
    .node "send" [.nil, .symbol "b"] none] none
  let placed := Tree.placed (.ofChars (sample.layout 2).toList) 2 0 0 sample
  have hreadable : sample.Readable := by
    unfold Tree.Readable
    decide
  have hread (path : String) : readText path (sample.layout 2) = .ok placed :=
    Tree.readText_layout rfl hreadable path
  have hlayout : placed.layout 2 = sample.layout 2 :=
    Tree.layout_eq_of_bare_eq (Tree.bare_placed sample 0 0) 2
  have hrun : Pass.runAll (.ofText (sample.layout 2)) placed (Pipeline.standard .strict 2).chain =
      .ok placed := by
    simp [Pipeline.standard, Pass.runAll, Pass.run, placed, sample, Tree.placed, Tree.placedAll,
      Annotations.expand, Annotations.expandAll, Annotations.noteFor, Tree.annotates, Tree.call?,
      Tree.receiver?, Tree.children, Tree.withChildren, Phases.expand, Phases.expandAll, targetTags,
      Tree.isTestBlock, Tree.hasTag, Tree.isNode, Tree.tag, bind, Except.bind, Except.map, pure,
      Except.pure]
  have hexpand : (Pipeline.standard .strict 2).expandText "a.sexp" (sample.layout 2) =
      .ok placed := by
    unfold Pipeline.expandText
    rw [hread]
    exact hrun
  have hdone : (Pipeline.standard .strict 2).transformSource "a.sexp" "b.sexp" (sample.layout 2) =
      .ok ⟨sample.layout 2, SourceMap.build "a.sexp" "b.sexp" placed placed⟩ := by
    unfold Pipeline.transformSource Pipeline.mapEmitted
    rw [hexpand]
    change ((readText "b.sexp" (placed.layout 2)).mapError _ >>= _) = _
    rw [hlayout, hread]
    rfl
  obtain ⟨expanded, _, -, htext, -, -, -, hcount, -, -, hlines⟩ :=
    Pipeline.map_of_transformSource hdone
  exact ⟨_, expanded, hdone, htext, hcount, hlines⟩

end PhasedTests
