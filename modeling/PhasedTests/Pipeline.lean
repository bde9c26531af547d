import PhasedTests.Expansion.Annotations
import PhasedTests.Sexp.Layout
import PhasedTests.SourceMap.Registry

/-!
# The expansion of a file

A file's text is read, its tree goes through a chain of expansions, and the result is laid out as
text again. For a file that is written somewhere the emitted text is read once more to map its
lines back.
-/

namespace PhasedTests

/-- One expansion of a chain. -/
inductive Pass where
  | annotations (registry : Annotations.Registry)
  | phases (mode : Mode)

namespace Pass

/-- Runs one expansion. -/
def run (pass : Pass) (context : Context) (t : Tree) : Except TransformError (Tree × Context) :=
  match pass with
  | annotations registry => Annotations.expand registry context t
  | phases mode => (Phases.expand mode context t).map fun expanded => (expanded, context)

/-- Runs expansions in order; each knows the targets that the earlier ones have finished. -/
def runAll (context : Context) (t : Tree) : List Pass → Except TransformError Tree
  | [] => .ok t
  | pass :: rest => do
    let (expanded, context) ← pass.run context t
    runAll context expanded rest

end Pass

/-- How texts are expanded. -/
structure Pipeline where
  chain : List Pass
  indent : Nat

/-- A expanded text with its source map. -/
structure Mapped where
  text : String
  map : SourceMap

namespace Pipeline

/-- Annotations first, then the phase expansion of the whole tree. -/
def standard (mode : Mode) (indent : Nat) : Pipeline :=
  ⟨[.annotations Annotations.standard, .phases mode], indent⟩

/-- Expands a tree that comes from no text. -/
def transformTree (pipeline : Pipeline) (t : Tree) : Except TransformError Tree :=
  Pass.runAll .detached t pipeline.chain

/-- The expanded tree of a text; `path` names the text in errors. -/
def expandText (pipeline : Pipeline) (path text : String) : Except TransformError Tree := do
  let t ← (readText path text).mapError .parse
  Pass.runAll (.ofText text) t pipeline.chain

/-- Expands a text that has no path. -/
def transform (pipeline : Pipeline) (text : String) : Except TransformError String :=
  (pipeline.expandText "tmp" text).map (Tree.layout pipeline.indent)

/-- The emitted text of an expanded tree with the map of its lines. -/
def mapEmitted (source transformed : String) (expanded : Tree) (text : String) :
    Except TransformError Mapped := do
  let emitted ← (readText transformed text).mapError .emittedUnreadable
  return ⟨text, SourceMap.build source transformed expanded emitted⟩

/-- Expands the text of the file `source` into the text of the file `transformed`. -/
def transformSource (pipeline : Pipeline) (source transformed text : String) :
    Except TransformError Mapped := do
  let expanded ← pipeline.expandText source text
  mapEmitted source transformed expanded (expanded.layout pipeline.indent)

end Pipeline

end PhasedTests
