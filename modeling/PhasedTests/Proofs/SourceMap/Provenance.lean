import PhasedTests.Proofs.Expansion.Annotations
import PhasedTests.Proofs.Sexp.Location
import PhasedTests.Proofs.SourceMap.Lines

/-!
# Where the lines of a source map come from

The expansion makes no places up: every place in an expanded file is the place of a node of its
source. So a source map only names lines on which nodes of the source start, and these lie within
the source.
-/

namespace PhasedTests

namespace Tree

private theorem inside_deepest (t : Tree) (path : List Nat) : Inside (t.deepest path).2 t := by
  induction path generalizing t with
  | nil => exact .self t
  | cons index path ih =>
    unfold deepest
    split
    · rename_i child hchild
      exact (ih child).trans (inside_of_nodeAt? hchild)
    · exact .self t

mutual

private theorem inside_of_findEqual? {target found : Tree} :
    (t : Tree) → findEqual? target t = some found → Inside found t
  | leaf _, hfound => nomatch hfound
  | node tag children location, hfound => by
    unfold findEqual? at hfound
    split at hfound
    · obtain rfl := Option.some.inj hfound
      exact .self _
    · obtain ⟨c, hc, hinside⟩ := inside_of_findEqualAll? children hfound
      exact .child hc hinside

private theorem inside_of_findEqualAll? {target found : Tree} :
    (trees : List Tree) → findEqualAll? target trees = some found →
      ∃ t ∈ trees, Inside found t
  | [], hfound => nomatch hfound
  | t :: rest, hfound => by
    rcases Option.or_eq_some_iff.mp hfound with hfirst | ⟨-, hrest⟩
    · exact ⟨t, List.mem_cons_self, inside_of_findEqual? t hfirst⟩
    · obtain ⟨c, hc, hinside⟩ := inside_of_findEqualAll? rest hrest
      exact ⟨c, List.mem_cons_of_mem t hc, hinside⟩

end

end Tree

namespace SourceMap

private theorem inside_of_counterpart? {expanded emitted found : Tree} {path : List Nat}
    (hfound : counterpart? expanded path emitted = some found) : Tree.Inside found expanded := by
  unfold counterpart? at hfound
  split at hfound
  · rename_i other hdig
    obtain rfl := Option.some.inj hfound
    exact Tree.inside_of_dig? hdig
  · dsimp only at hfound
    split at hfound
    · cases hfound
    · exact (Tree.inside_of_findEqual? _ hfound).trans (Tree.inside_deepest expanded _)

/-- A line that a map knows is the line of a node of the expanded tree, whatever tree the emitted
text is read as. -/
theorem exists_of_line?_build {source transformed : String} {expanded emitted : Tree}
    {line known : Nat}
    (hknown : (build source transformed expanded emitted).line? line = some known) :
    ∃ u, Tree.Inside u expanded ∧ u.line? = some known := by
  have hline : ∃ n, sourceLine? expanded (oneLiners emitted) n = some known := by
    cases line with
    | zero => cases hknown
    | succ n =>
      have hlisted : some known ∈ (build source transformed expanded emitted).lines :=
        List.mem_of_getElem? (Option.join_eq_some_iff.mp hknown)
      obtain ⟨index, -, hindex⟩ := List.mem_map.mp hlisted
      exact ⟨index + 1, hindex⟩
  obtain ⟨n, hline⟩ := hline
  obtain ⟨⟨start, path, t⟩, -, hentry⟩ := List.exists_of_findSome?_eq_some hline
  dsimp only at hentry
  split at hentry
  · obtain ⟨found, hfound, hanswer⟩ := Option.bind_eq_some_iff.mp hentry
    exact ⟨found, inside_of_counterpart? hfound, hanswer⟩
  · cases hentry

end SourceMap

/-- Where places come from is a comparison that the expansion obeys. -/
theorem containment_places : Containment fun a b =>
    ∀ u, Tree.Inside u a → ∀ span, u.location = some span →
      ∃ v, Tree.Inside v b ∧ v.location = some span where
  refl t u hinside span hspan := ⟨u, hinside, hspan⟩
  trans hfirst hsecond u hinside span hspan := by
    obtain ⟨v, hv, hplace⟩ := hfirst u hinside span hspan
    exact hsecond v hv span hplace
  leaf value t u hinside span hspan := by
    cases hinside
    cases hspan
  child hmember u hinside span hspan := ⟨u, .child hmember hinside, hspan⟩
  generated := by
    intro tag children location t _ hparts hplace u hinside span hspan
    cases hinside with
    | self =>
      obtain ⟨v, hv, hlocation⟩ := hplace span hspan
      exact hv v (.self v) span hlocation
    | child hmem hinside => exact hparts _ hmem u hinside span hspan
  moved := by
    intro a t location hpart hplace u hinside span hspan
    cases a with
    | leaf value =>
      cases hinside
      cases hspan
    | node tag children place =>
      cases hinside with
      | self =>
        obtain ⟨v, hv, hlocation⟩ := hplace span hspan
        exact hv v (.self v) span hlocation
      | child hmem hinside => exact hpart u (.child hmem hinside) span hspan
  exchanged := by
    intro tag children others location hlesser u hinside span hspan
    cases hinside with
    | self => exact ⟨_, .self _, hspan⟩
    | child hmem hinside =>
      obtain ⟨d, hd, hcd⟩ := hlesser _ hmem
      obtain ⟨v, hv, hplace⟩ := hcd u hinside span hspan
      exact ⟨v, .child hd hv, hplace⟩

namespace Pipeline

/-- A text that is expanded has a source map, the places in the expanded file are places of nodes of
the text, and every line that the map knows is the line on which a node of the text starts, among
the lines of the text. -/
theorem provenance_of_expandText {mode : Mode} {indent : Nat} {source text : String}
    {expanded : Tree} (hdone : (standard mode indent).expandText source text = .ok expanded)
    (transformed : String) :
    ∃ t mapped, readText source text = .ok t ∧
      (standard mode indent).transformSource source transformed text = .ok mapped ∧
      (∀ u, Tree.Inside u expanded → ∀ span, u.location = some span →
        ∃ v, Tree.Inside v t ∧ v.location = some span) ∧
      ∀ line known, mapped.map.line? line = some known →
        (∃ v, Tree.Inside v t ∧ v.line? = some known) ∧
          1 ≤ known ∧ known ≤ lineTotal text.toList := by
  obtain ⟨t, hread, hplaces⟩ := expandText_within containment_places hdone
  refine ⟨t, _, hread, transformSource_of_expandText hdone, hplaces, ?_⟩
  intro line known hknown
  obtain ⟨u, hu, hline⟩ := SourceMap.exists_of_line?_build hknown
  obtain ⟨span, hspan, hstart⟩ := Option.map_eq_some_iff.mp hline
  obtain ⟨v, hv, hplace⟩ := hplaces u hu span hspan
  have hsource : v.line? = some known := Option.map_eq_some_iff.mpr ⟨span, hplace, hstart⟩
  exact ⟨⟨v, hv, hsource⟩, line_of_readText hread hv hsource⟩

/-- The expansion of a test with a data table, and where its lines come from. -/
theorem provenance_of_expandText_tableTests :
    let text := Phases.tableTests.layout 2
    ∃ expanded t mapped, (standard .strict 2).expandText "a.sexp" text = .ok expanded ∧
      readText "a.sexp" text = .ok t ∧
      (standard .strict 2).transformSource "a.sexp" "b.sexp" text = .ok mapped ∧
      (∀ u, Tree.Inside u expanded → ∀ span, u.location = some span →
        ∃ v, Tree.Inside v t ∧ v.location = some span) ∧
      ∀ line known, mapped.map.line? line = some known →
        (∃ v, Tree.Inside v t ∧ v.line? = some known) ∧
          1 ≤ known ∧ known ≤ lineTotal text.toList := by
  have hreadable : Phases.tableTests.Readable := by
    unfold Tree.Readable
    decide
  have hplain : (Tree.placed (.ofChars (Phases.tableTests.layout 2).toList) 2 0 0
      Phases.tableTests).Unannotated := by
    decide
  have hdone : ∃ expanded, (standard .strict 2).expandText "a.sexp" (Phases.tableTests.layout 2) =
      .ok expanded := by
    rw [expandText_layout _ _ rfl hreadable, Pass.runAll_standard hplain]
    exact ⟨_, rfl⟩
  obtain ⟨expanded, hdone⟩ := hdone
  obtain ⟨t, mapped, hprovenance⟩ := provenance_of_expandText hdone "b.sexp"
  exact ⟨expanded, t, mapped, hdone, hprovenance⟩

end Pipeline

end PhasedTests
