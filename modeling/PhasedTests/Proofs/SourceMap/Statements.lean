import PhasedTests.Proofs.Expansion.Annotations
import PhasedTests.Proofs.Expansion.Tests
import PhasedTests.Proofs.Generate.Reassembly
import PhasedTests.Proofs.Generate.Trace
import PhasedTests.Proofs.Sexp.Location
import PhasedTests.Proofs.SourceMap.OwnLine

/-!
# The lines of statements

A statement of a test that is read has a place, and what is generated from it keeps this place
wherever it is moved. It also stays a statement of a sequence, so it opens the line that it is
printed on, and the source map answers this line with the line of the source statement.
-/

namespace PhasedTests

namespace Tree

/-- What lies inside a child of a tree inside another lies inside a child of the other. -/
theorem exists_child_of_inside {s c u t : Tree} (hinside : Inside u t) (hc : c ∈ u.children)
    (hs : Inside s c) : ∃ d ∈ t.children, Inside s d := by
  cases hinside with
  | self => exact ⟨c, hc, hs⟩
  | child hmem hinside => exact ⟨_, hmem, (hs.of_child hc).trans hinside⟩

/-- The statements of a test that was read have lines. -/
theorem exists_line?_of_testStatements {path text : String} {t test s : Tree}
    (hread : readText path text = .ok t) (hinside : Inside test t)
    (hs : s ∈ test.testStatements) : ∃ line, s.line? = some line := by
  obtain ⟨c, hc, hsc⟩ := inside_of_mem_testStatements hs
  obtain ⟨d, hd, hsd⟩ := exists_child_of_inside hinside hc hsc
  have hplace := located_of_readText hread d hd s hsd (test.allNodes_testStatements s hs)
  obtain ⟨span, hspan⟩ := Option.isSome_iff_exists.mp hplace
  exact ⟨span.start.line, by rw [line?, hspan, Option.map_some]⟩

variable {indent : Nat}

/-- A printed node is the node at its path. -/
theorem dig?_of_mem_printed {t : Tree} {p : Printed} (hmem : p ∈ t.printed indent) :
    t.dig? p.path = some p.node := by
  refine dig?_of_mem_walk t (p.path, p.node) ?_
  rw [← @walk_eq_printedBehind indent t 0 []]
  exact List.mem_map_of_mem hmem

/-- A statement of a sequence opens the line that it is printed on. -/
theorem Sequenced.opensLine {t statement : Tree} {path : List Nat} {p : Printed}
    (hsequenced : t.Sequenced path statement) (hmem : p ∈ t.printed indent)
    (hpath : p.path = path) : p.OpensLine := by
  obtain ⟨above, index, sequence, rfl, habove, hbegin, hstatement⟩ := hsequenced
  exact opensLine_of_isMultiline above t 0 [] p hmem index sequence hpath habove
    (isMultiline_of_begin hbegin hstatement)

end Tree

namespace Phases

/-- Whether a test is rewritten. The lenient expansion leaves tests without phases alone. -/
def rewrites (mode : Mode) (t : Tree) : Bool :=
  mode = .strict || hasPhases t.testStatements

/-- A test that is rewritten becomes the method generated from it. -/
theorem expandTest_of_rewrites {mode : Mode} {context : Context} {t : Tree}
    (hrewrites : rewrites mode t = true) :
    expandTest mode context t = TestMethod.parse context t >>= Generate.method := by
  unfold expandTest
  rw [if_neg]
  cases mode with
  | strict => simp
  | lenient => simpa [rewrites] using hrewrites

end Phases

namespace Pipeline

open Generate

/-- A text that the phase expansion accepts has a source map. In every test that is rewritten and
expects at most one exception, each node that is generated from a statement has a path in the
expanded file. There it stands with locals read in it, and if it is printed on a single line, then
the source map answers this line with the line on which the statement starts in the source. -/
theorem line_of_statement {mode : Mode} {indent : Nat} {source text : String} {expanded : Tree}
    (hdone : (⟨[.phases mode], indent⟩ : Pipeline).expandText source text = .ok expanded)
    (transformed : String) :
    ∃ t mapped, readText source text = .ok t ∧
      (⟨[.phases mode], indent⟩ : Pipeline).transformSource source transformed text =
        .ok mapped ∧
      ∀ entry ∈ t.outerTests, Phases.rewrites mode entry.2 = true →
        ((statementsIn .then entry.2.testStatements).filterMap Statement.raised?).length ≤ 1 →
        (∀ s g, GeneratedFrom (.ofText text) entry.2.testStatements s g →
          ∃ path, ⟨s, g, path⟩ ∈ traces (.ofText text) entry.2) ∧
        ∀ trace ∈ traces (.ofText text) entry.2, ∃ names line,
          expanded.dig? (entry.1 ++ trace.path) =
            some (callsToLocals names (callsToLocals [testIndex, lineNumber] trace.generated)) ∧
          trace.source.line? = some line ∧
          ∀ p ∈ expanded.printed indent, p.path = entry.1 ++ trace.path →
            p.isSingleLine = true → mapped.map.line? p.line = some line := by
  obtain ⟨t, hread, hrun⟩ := ok_of_bind hdone
  have hread := ok_of_mapError hread
  have hexpand : Phases.expand mode (.ofText text) t = .ok expanded := by
    obtain ⟨⟨other, later⟩, hpass, hother⟩ := ok_of_bind hrun
    obtain ⟨found, hfound, hpair⟩ := ok_of_map hpass
    obtain rfl := Except.ok.inj hother
    rw [hfound, (Prod.mk.inj hpair).1]
  refine ⟨t, _, hread, transformSource_of_expandText hdone, ?_⟩
  intro entry hentry hrewrites hraises
  refine ⟨fun s g hfrom => exists_mem_traces hfrom, ?_⟩
  intro trace htrace
  obtain ⟨built, hbuilt, hdig⟩ := Phases.expandTest_of_mem_outerTests rfl hexpand hentry
  rw [Phases.expandTest_of_rewrites hrewrites] at hbuilt
  obtain ⟨test, hparse, hmethod⟩ := ok_of_bind hbuilt
  obtain ⟨hsource, hplace, names, hsequenced⟩ :=
    sequenced_of_mem_traces hparse hmethod hraises trace htrace
  have hstatement := hsequenced.behind hdig
  obtain ⟨line, hline⟩ := Tree.exists_line?_of_testStatements hread
    (Tree.inside_of_mem_outerTests hentry) hsource
  refine ⟨names, line, hstatement.dig?, hline, ?_⟩
  intro p hp hpath hsingle
  have hnode : p.node = callsToLocals names (callsToLocals [testIndex, lineNumber]
      trace.generated) := by
    have hfound := Tree.dig?_of_mem_printed hp
    rw [hpath, hstatement.dig?] at hfound
    exact (Option.some.inj hfound).symm
  have hkept : p.node.line? = some line := by
    rw [hnode, Tree.line?, location_callsToLocals, location_callsToLocals, hplace]
    exact hline
  exact SourceMap.line?_of_opensLine hp (hstatement.opensLine hp hpath) hsingle hkept

/-- A file with a test that mocks a call, expects an exception and cleans up. -/
def doorTests : Tree :=
  Tree.Build.fresh "class" [doorTest]

/-- The lines of its statements. -/
theorem line_of_statement_doorTests :
    let pipeline : Pipeline := ⟨[.phases .lenient], 2⟩
    let text := doorTests.layout 2
    ∃ expanded t mapped entry, pipeline.expandText "a.sexp" text = .ok expanded ∧
      readText "a.sexp" text = .ok t ∧
      pipeline.transformSource "a.sexp" "b.sexp" text = .ok mapped ∧
      entry ∈ t.outerTests ∧ Phases.rewrites .lenient entry.2 = true ∧
      ((statementsIn .then entry.2.testStatements).filterMap Statement.raised?).length ≤ 1 ∧
      (traces (.ofText text) entry.2).length = 5 ∧
      ∀ trace ∈ traces (.ofText text) entry.2, ∃ names line,
        expanded.dig? (entry.1 ++ trace.path) =
          some (callsToLocals names (callsToLocals [testIndex, lineNumber] trace.generated)) ∧
        trace.source.line? = some line ∧
        ∀ p ∈ expanded.printed 2, p.path = entry.1 ++ trace.path → p.isSingleLine = true →
          mapped.map.line? p.line = some line := by
  have hreadable : doorTests.Readable := by
    unfold Tree.Readable
    decide
  have hdone : ∃ expanded, (⟨[.phases .lenient], 2⟩ : Pipeline).expandText "a.sexp"
      (doorTests.layout 2) = .ok expanded := by
    rw [expandText_layout _ _ rfl hreadable]
    exact ⟨_, rfl⟩
  have hentry : ∃ entry ∈ (Tree.placed (.ofChars (doorTests.layout 2).toList) 2 0 0
      doorTests).outerTests, Phases.rewrites .lenient entry.2 = true ∧
      ((statementsIn .then entry.2.testStatements).filterMap Statement.raised?).length ≤ 1 ∧
      (traces (.ofText (doorTests.layout 2)) entry.2).length = 5 :=
    ⟨_, List.mem_of_getElem? (i := 0) rfl, rfl, Nat.le_refl 1, rfl⟩
  obtain ⟨expanded, hdone⟩ := hdone
  obtain ⟨entry, hentry, hrewrites, hraises, hcount⟩ := hentry
  obtain ⟨t, mapped, hread, hmapped, htests⟩ := line_of_statement hdone "b.sexp"
  obtain rfl := Except.ok.inj ((Tree.readText_layout rfl hreadable "a.sexp").symm.trans hread)
  exact ⟨expanded, _, mapped, entry, hdone, hread, hmapped, hentry, hrewrites, hraises, hcount,
    (htests entry hentry hrewrites hraises).2⟩

end Pipeline

end PhasedTests
