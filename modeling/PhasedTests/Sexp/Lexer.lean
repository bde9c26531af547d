import PhasedTests.Sexp.Token
import PhasedTests.Source.LineIndex

/-!
# Lexing

A text is cut into tokens and the gaps between them. Gaps hold spaces, tabs, line feeds, carriage
returns, form feeds, and comments from a semicolon up to the end of the line. The first characters
that are no token end the scan.
-/

namespace PhasedTests

/-- A token and the bytes it covers. -/
structure Lexeme where
  token : Token
  first : Nat
  stop : Nat

/-- Characters that are no token, and the bytes they cover. -/
structure Stray where
  chars : List Char
  first : Nat
  stop : Nat

/-- The tokens up to the end of the text, or up to the first characters that are none. -/
structure Scan where
  lexemes : List Lexeme
  stray : Option Stray

namespace Scan

/-- The characters that may stand between tokens outside comments. -/
def isGapChar (c : Char) : Bool :=
  c == ' ' || c == '\t' || c == '\n' || c == '\r' || c == '\x0c'

/-- The gap at the start of a text. -/
def gap (inComment : Bool) : List Char → List Char
  | [] => []
  | c :: rest =>
    if inComment then c :: gap (c ≠ '\n') rest
    else if c = ';' then c :: gap true rest
    else if isGapChar c then c :: gap false rest
    else []

/-- The scan of a text that starts at byte `offset`. -/
def fromOffset (offset : Nat) (chars : List Char) : Scan :=
  match _hrest : chars.drop (gap false chars).length with
  | [] => ⟨[], none⟩
  | c :: rest =>
    let found := Match.atStart c rest
    let first := offset + byteLength (gap false chars)
    let stop := first + byteLength found.taken
    match found.token with
    | none => ⟨[], some ⟨found.taken, first, stop⟩⟩
    | some token =>
      let later := fromOffset stop (rest.drop (found.taken.length - 1))
      ⟨⟨token, first, stop⟩ :: later.lexemes, later.stray⟩
termination_by chars.length
decreasing_by
  have hlength := congrArg List.length _hrest
  simp only [List.length_drop, List.length_cons] at hlength ⊢
  omega

/-- The scan of a whole text. -/
def ofChars (chars : List Char) : Scan :=
  fromOffset 0 chars

end Scan

end PhasedTests
