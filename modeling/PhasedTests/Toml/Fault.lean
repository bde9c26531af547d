import PhasedTests.Source.LineIndex
import PhasedTests.Text.Quoted

/-!
# Faults in TOML

What can be wrong with a TOML text, how it is worded, and how the line at fault is shown.
-/

namespace PhasedTests.Toml

/-- What is wrong with a text that is well formed so far. -/
inductive Cause where
  | duplicateKey (key : String)
  | duplicateKeyIn (key : String) (table : List String)
  | notATable (keys : List String) (found : String)
  | outOfRange
  | tooLarge
  | tooSmall
  | tooDeep
  /-- The text that should be a date or a time is none. -/
  | noDate
  /-- Something else stands where the text of a date or a time should. -/
  | noDateText (found : String)

namespace Cause

/-- A character or word as it is quoted in a message. -/
def quote (word : String) : String :=
  "`" ++ word ++ "`"

/-- The wording of a cause. -/
def message : Cause → String
  | duplicateKey key => "duplicate key " ++ quote key
  | duplicateKeyIn key [] => "duplicate key " ++ quote key ++ " in document root"
  | duplicateKeyIn key table =>
    "duplicate key " ++ quote key ++ " in table " ++ quote (".".intercalate table)
  | notATable keys found =>
    "dotted key " ++ quote (".".intercalate keys) ++ " attempted to extend non-table type (" ++
      found ++ ")"
  | outOfRange => "value is out of range"
  | tooLarge => "number too large to fit in target type"
  | tooSmall => "number too small to fit in target type"
  | tooDeep => "recursion limit exceeded"
  | noDate => "failed to parse datetime"
  | noDateText found => "invalid type: " ++ found ++ ", expected string containing a datetime"

end Cause

/-- A fault: what the text at fault belongs to, what was possible there, and what else is wrong. -/
structure Fault where
  part : Option String
  possible : List String
  cause : Option Cause

namespace Fault

/-- The fault of a text that does not fit, without any more to say about it. -/
def unknown : Fault :=
  ⟨none, [], none⟩

/-- The fault of a text that is wrong for this reason. -/
def ofCause (cause : Cause) : Fault :=
  ⟨none, [], some cause⟩

/-- The wording of a fault: up to three lines. -/
def message (fault : Fault) : String :=
  let part := fault.part.toList.map ("invalid " ++ ·)
  let possible :=
    if fault.possible.isEmpty then [] else ["expected " ++ ", ".intercalate fault.possible]
  "\n".intercalate (part ++ possible ++ fault.cause.toList.map Cause.message)

end Fault

/-- Why a TOML text holds no settings. -/
inductive Error where
  /-- There is a fault in the text, at a byte offset and over some bytes. -/
  | faulty (text : List Char) (offset width : Nat) (fault : Fault)
  /-- The text as a whole stands for a date or a time. -/
  | noTable (date : String)

namespace Error

/-- The line and the column of a byte offset, counted from zero. A column counts characters where
the byte at the offset ends one, and bytes elsewhere. Behind the last byte the position is that of
the last byte, moved on. -/
def place (text : List Char) (offset : Nat) : Nat × Nat :=
  let size := byteLength text
  if size = 0 then (0, offset)
  else
    let inside := min offset (size - 1)
    let position := (LineIndex.ofChars text).position inside
    let upTo := (dropBytes? text (inside + 1 - position.column)).bind
      fun line => takeBytes? line position.column
    let column := match upTo with
      | some chars => chars.length - 1
      | none => position.column - 1
    (position.line - 1, column + (offset - inside))

/-- The lines of a text without the line feeds. -/
def splitLines : List Char → List (List Char)
  | [] => [[]]
  | c :: rest =>
    match splitLines rest with
    | [] => [[c]]
    | first :: others => if c = '\n' then [] :: first :: others else (c :: first) :: others

/-- The wording: where the fault is, the line it is in, and what it is. -/
def message : Error → String
  | faulty text offset width fault =>
    let (line, column) := place text offset
    let number := toString (line + 1)
    let content := (splitLines text)[line]?.getD []
    let gutter := String.ofList (List.replicate (number.length + 1) ' ') ++ "|"
    let marks := max 1 (min width (byteLength content - column))
    "TOML parse error at line " ++ number ++ ", column " ++ toString (column + 1) ++ "\n" ++
      gutter ++ "\n" ++
      number ++ " | " ++ String.ofList content ++ "\n" ++
      gutter ++ String.ofList (List.replicate (column + 1) ' ' ++ List.replicate marks '^') ++
      "\n" ++ fault.message ++ "\n"
  | noTable date =>
    "invalid type: string " ++ String.ofList (Text.Quoted.encode date.toList) ++ ", expected a map"

end Error

end PhasedTests.Toml
