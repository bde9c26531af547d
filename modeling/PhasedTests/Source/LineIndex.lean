import PhasedTests.Source.Span

/-!
# Lines of a text

Byte offsets and slices of a text. A line starts at offset zero and after every line feed; the line
of an offset is the last one that starts at or before it, so offsets past the end lie on the last
line. Offsets and columns are not bounded here; with numbers of a machine word they agree as long as
the offset is below the largest one, where the column of an offset on the first line would overflow.
-/

namespace PhasedTests

/-- The number of bytes of a character list in UTF-8. -/
def byteLength : List Char → Nat
  | [] => 0
  | c :: rest => c.utf8Size + byteLength rest

/-- The characters after the first `count` bytes, if a character ends there. -/
def dropBytes? : List Char → Nat → Option (List Char)
  | chars, 0 => some chars
  | [], _ + 1 => none
  | c :: rest, count + 1 =>
    if c.utf8Size ≤ count + 1 then dropBytes? rest (count + 1 - c.utf8Size) else none

/-- The characters in the first `count` bytes, if a character ends there. -/
def takeBytes? : List Char → Nat → Option (List Char)
  | _, 0 => some []
  | [], _ + 1 => none
  | c :: rest, count + 1 =>
    if c.utf8Size ≤ count + 1 then
      (takeBytes? rest (count + 1 - c.utf8Size)).map (c :: ·)
    else none

/-- The characters between two byte offsets, if both lie between characters and in order. -/
def sliceBytes? (chars : List Char) (first stop : Nat) : Option (List Char) :=
  if first ≤ stop then
    (dropBytes? chars first).bind fun rest => takeBytes? rest (stop - first)
  else none

/-- The offsets at which the lines after the first one start. -/
structure LineIndex where
  laterStarts : List Nat
  deriving Repr

namespace LineIndex

/-- The offsets that follow a line feed, for a text that begins at `offset`. -/
def startsFrom (offset : Nat) : List Char → List Nat
  | [] => []
  | c :: rest =>
    let next := offset + c.utf8Size
    if c = '\n' then next :: startsFrom next rest else startsFrom next rest

/-- The lines of a text. -/
def ofChars (chars : List Char) : LineIndex :=
  ⟨startsFrom 0 chars⟩

/-- The number of lines; a final line feed is followed by an empty line. -/
def lineCount (index : LineIndex) : Nat :=
  index.laterStarts.length + 1

/-- The position of an offset at or after `start`, where line `line` starts at `start` and the
following lines at `later`. -/
def locate (line start : Nat) : List Nat → Nat → Position
  | [], offset => ⟨line, offset - start + 1⟩
  | next :: later, offset =>
    if next ≤ offset then locate (line + 1) next later offset else ⟨line, offset - start + 1⟩

/-- The position of a byte offset, which may lie past the end but below the largest machine word. -/
def position (index : LineIndex) (offset : Nat) : Position :=
  locate 1 0 index.laterStarts offset

/-- The span of the bytes from `first` up to but not including `stop`. An empty stretch is placed
at its first offset. -/
def span (index : LineIndex) (first stop : Nat) : Span :=
  ⟨first, stop, index.position first, index.position (max (stop - 1) first)⟩

end LineIndex

end PhasedTests
