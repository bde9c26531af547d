import PhasedTests.Hook
import PhasedTests.Proofs.Expansion.Annotations
import PhasedTests.Proofs.Expansion.Failure
import PhasedTests.Proofs.Expansion.Phaseless
import PhasedTests.Proofs.Sexp.RoundTrip
import PhasedTests.Proofs.SourceMap.Lines

/-!
# Texts and files

A path takes no part in an expansion, it only names the text where that cannot be read. And what an
expansion emits can always be read again. So the text of a file is expanded exactly as the same text
without a path, and mapping the emitted lines back never fails.
-/

namespace PhasedTests

namespace TransformError

/-- The error as it is reported for the file at a path: an unreadable text is named by the path. -/
def forFile (path : String) : TransformError → TransformError
  | parse cause => parse { cause with path }
  | e => e

private theorem forFile_of_inTree {e : TransformError} (htree : e.inTree = true) (path : String) :
    e.forFile path = e := by
  cases e <;> first | rfl | cases htree

end TransformError

/-- A path only names the text in an error. -/
theorem readText_path (path other text : String) :
    readText path text = (readText other text).mapError fun cause => { cause with path } := by
  unfold readText
  dsimp only
  split
  · rfl
  · split <;> rfl

namespace Pipeline

variable (pipeline : Pipeline)

private theorem expandText_path (path other text : String) :
    pipeline.expandText path text = (pipeline.expandText other text).mapError (.forFile path) := by
  unfold expandText
  rw [readText_path path other text]
  cases readText other text with
  | error cause => rfl
  | ok t =>
    change Pass.runAll _ t _ = (Pass.runAll _ t _).mapError _
    cases hrun : Pass.runAll (.ofText text) t pipeline.chain with
    | ok expanded => rfl
    | error e =>
      have htree := Pass.inTree_of_runAll pipeline.chain _ t e hrun
      change Except.error e = .error (e.forFile path)
      rw [TransformError.forFile_of_inTree htree]

/-- Nothing is emitted before the expansion is done. -/
theorem failsOnly_expandText (path text : String) :
    FailsOnly (fun e => ∀ cause, e ≠ .emittedUnreadable cause)
      (pipeline.expandText path text) := by
  refine (failsOnly_mapError fun fault cause => nofun).bind fun t _ => ?_
  refine (Pass.inTree_of_runAll _ _ t).imp ?_
  rintro e htree cause rfl
  cases htree

/-- What an expansion emits is read back as the expanded tree, so mapping its lines never fails. The
text of a file is therefore expanded exactly when it would be without a path, to the same text, and
otherwise both fail with the same error, up to the path that names an unreadable text. -/
theorem transformSource_eq_transform (world : World) (source transformed text : String) :
    (∀ expanded, pipeline.expandText source text = .ok expanded →
      ∃ emitted mapped,
        readText transformed (expanded.layout pipeline.indent) = .ok emitted ∧
        emitted.bare = expanded.bare ∧
        mapEmitted source transformed expanded (expanded.layout pipeline.indent) = .ok mapped) ∧
    (∀ cause,
      (world.transformSource pipeline source transformed text).1 ≠
        .error (.emittedUnreadable cause)) ∧
    (world.transformSource pipeline source transformed text).1 =
      (pipeline.transform text).mapError (.forFile source) := by
  have hpath := pipeline.expandText_path source "tmp" text
  refine ⟨?_, ?_, ?_⟩
  · intro expanded hdone
    obtain ⟨emitted, hread, hshape⟩ := Tree.exists_readText_layout pipeline.indent transformed
      (isNode_of_expandText hdone) (readable_of_expandText hdone)
    exact ⟨emitted, _, hread, hshape, mapEmitted_of_readText hread⟩
  · intro cause
    unfold World.transformSource
    cases hdone : pipeline.expandText source text with
    | ok expanded =>
      rw [transformSource_of_expandText hdone]
      exact nofun
    | error e =>
      have hkind := pipeline.failsOnly_expandText source text e hdone cause
      unfold transformSource
      rw [hdone]
      exact fun hsame => hkind (Except.error.inj hsame)
  · unfold World.transformSource transform
    cases hdone : pipeline.expandText "tmp" text with
    | ok expanded =>
      rw [hdone] at hpath
      rw [transformSource_of_expandText hpath]
      rfl
    | error e =>
      rw [hdone] at hpath
      unfold transformSource
      rw [hpath]
      rfl

/-- A test with a data table, expanded for a file and without one. -/
theorem transformSource_eq_transform_tableTests :
    let text := Phases.tableTests.layout 2
    let world : World := ⟨.empty, .empty⟩
    ∃ expanded emitted, (standard .strict 2).expandText "a.sexp" text = .ok expanded ∧
      readText "b.sexp" (expanded.layout 2) = .ok emitted ∧ emitted.bare = expanded.bare ∧
      (world.transformSource (standard .strict 2) "a.sexp" "b.sexp" text).1 =
        ((standard .strict 2).transform text).mapError (.forFile "a.sexp") := by
  have hreadable : Phases.tableTests.Readable := by
    unfold Tree.Readable
    decide
  have hplain : (Tree.placed (.ofChars (Phases.tableTests.layout 2).toList) 2 0 0
      Phases.tableTests).Unannotated := by
    decide
  have hdone : ∃ expanded, (standard .strict 2).expandText "a.sexp" (Phases.tableTests.layout 2) =
      .ok expanded := by
    rw [expandText_layout _ _ rfl hreadable, Pass.runAll_standard hplain]
    exact ⟨_, rfl⟩
  obtain ⟨expanded, hdone⟩ := hdone
  obtain ⟨hemitted, -, hsame⟩ := (standard .strict 2).transformSource_eq_transform
    ⟨.empty, .empty⟩ "a.sexp" "b.sexp" (Phases.tableTests.layout 2)
  obtain ⟨emitted, -, hread, hshape, -⟩ := hemitted expanded hdone
  exact ⟨expanded, emitted, hdone, hread, hshape, hsame⟩

end Pipeline

end PhasedTests
