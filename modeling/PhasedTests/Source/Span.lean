/-!
# Positions and spans

A position is a line and a column of a text, both counted from one; columns count bytes. A span is
a stretch of text: its first byte offset, the offset after its last byte, and the positions of its
first and last bytes.
-/

namespace PhasedTests

/-- A line and a column, counted from one. Columns count bytes. -/
structure Position where
  line : Nat
  column : Nat
  deriving DecidableEq, Repr

namespace Position

/-- Reading order. -/
def before (a b : Position) : Bool :=
  a.line < b.line || (a.line == b.line && a.column < b.column)

/-- `line:column`. -/
def text (p : Position) : String :=
  toString p.line ++ ":" ++ toString p.column

end Position

/-- A stretch of text: the bytes from `first` up to but not including `stop`, of which the first
lies at `start` and the last at `finish`. -/
structure Span where
  first : Nat
  stop : Nat
  start : Position
  finish : Position
  deriving DecidableEq, Repr

namespace Span

/-- Whether the span begins and ends on one line. -/
def isSingleLine (s : Span) : Bool :=
  s.start.line == s.finish.line

/-- The smallest span that covers both: the earlier start and the later end, where positions
decide and the first span wins a draw. -/
def cover (a b : Span) : Span :=
  let opening := if b.start.before a.start then b else a
  let closing := if a.finish.before b.finish then b else a
  ⟨opening.first, closing.stop, opening.start, closing.finish⟩

/-- `line:column..line:column`. -/
def text (s : Span) : String :=
  s.start.text ++ ".." ++ s.finish.text

/-- The start of a span as error messages show it, with a question mark for an unknown one. -/
def describe : Option Span → String
  | some s => s.start.text
  | none => "?"

end Span

end PhasedTests
