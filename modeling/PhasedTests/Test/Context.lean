import PhasedTests.Sexp.Inline
import PhasedTests.Source.LineIndex

/-!
# What an expansion knows

The text that a tree was read from, if there is one, and the finished targets of annotations. A
target is remembered by its written form.
-/

namespace PhasedTests

/-- The written forms of trees that an annotated expansion has finished. -/
abbrev Finished := List String

/-- The text of the tree being expanded and the targets finished so far. -/
structure Context where
  source : Option (List Char)
  finished : Finished

namespace Context

/-- The context of a tree that was not read from a text. -/
def detached : Context :=
  ⟨none, []⟩

/-- The context of a tree that was read from `text`. -/
def ofText (text : String) : Context :=
  ⟨some text.toList, []⟩

/-- The text that a node was read from, or its written form when that is not at hand. -/
def sourceText (context : Context) (t : Tree) : String :=
  let slice := do
    let chars ← context.source
    let span ← t.location
    sliceBytes? chars span.first span.stop
  match slice with
  | some chars => String.ofList chars
  | none => t.inline

/-- The context in which `t` is a finished target. -/
def finish (context : Context) (t : Tree) : Context :=
  { context with finished := t.inline :: context.finished }

/-- Whether a target of the same written form is finished. -/
def isFinished (context : Context) (t : Tree) : Bool :=
  !context.finished.isEmpty && context.finished.contains t.inline

end Context

end PhasedTests
