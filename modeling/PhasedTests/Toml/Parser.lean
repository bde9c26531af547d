import PhasedTests.Toml.Fault

/-!
# Reading TOML

A reading takes the text that is left and answers with a value and what it leaves of the text, or
with a failure and the text that was left where it failed. A failure is committed when the text is
known to be at fault; only of an uncommitted one another reading is tried instead.
-/

namespace PhasedTests.Toml

/-- The end of a reading that failed. -/
structure Failure where
  /-- The text that was left. -/
  rest : List Char
  fault : Fault
  committed : Bool

/-- A reading of the start of a text. -/
abbrev Parser (α : Type) := List Char → Except Failure (α × List Char)

/-- A stretch of a text, given by what is left of the text at its start and at its end. -/
structure Stretch where
  start : List Char
  stop : List Char

variable {α : Type}

/-- Fails where `rest` is left. -/
def miss (rest : List Char) : Except Failure α :=
  .error ⟨rest, .unknown, false⟩

/-- Fails for a reason where `rest` is left. -/
def reject (rest : List Char) (cause : Cause) : Except Failure α :=
  .error ⟨rest, .ofCause cause, true⟩

/-- Commits a failure. -/
def commit : Except Failure α → Except Failure α
  | .ok found => .ok found
  | .error failure => .error { failure with committed := true }

/-- Says what the text of a failure belongs to, unless that is known more closely. -/
def labelled (part : String) : Except Failure α → Except Failure α
  | .ok found => .ok found
  | .error ⟨rest, fault, committed⟩ =>
    .error ⟨rest, { fault with part := fault.part <|> some part }, committed⟩

/-- Says what else was possible where a reading failed. -/
def expecting (possible : List String) : Except Failure α → Except Failure α
  | .ok found => .ok found
  | .error ⟨rest, fault, committed⟩ =>
    .error ⟨rest, { fault with possible := fault.possible ++ possible }, committed⟩

/-- Reads nothing where a reading fails without being committed. -/
def attempt (item : Parser α) : Parser (Option α) := fun text =>
  match item text with
  | .ok (found, rest) => .ok (some found, rest)
  | .error failure => if failure.committed then .error failure else .ok (none, text)

/-- Repeats a step that hands on a state until it has nothing to do. A step that leaves as much as
it was given is the last one. -/
def loop {σ : Type} (step : σ → List Char → Except Failure (Option (σ × List Char)))
    (state : σ) (text : List Char) : Except Failure (σ × List Char) :=
  match step state text with
  | .error failure => .error failure
  | .ok none => .ok (state, text)
  | .ok (some (next, rest)) =>
    if rest.length < text.length then loop step next rest else .ok (next, rest)
termination_by text.length

/-- Adds the items that follow with a separator before each. A separator without an item behind it
is left. -/
def moreItems (separator : Char) (item : Parser α) (items : List α) : Parser (List α) :=
  loop (fun items text =>
    match text with
    | c :: rest =>
      if c = separator then do
        match ← attempt item rest with
        | (some found, after) => return some (items ++ [found], after)
        | (none, _) => return none
      else .ok none
    | [] => .ok none) items

/-- Items with separators between them, if there are any. -/
def separated (separator : Char) (item : Parser α) : Parser (List α) := fun text => do
  match ← attempt item text with
  | (some first, rest) => moreItems separator item [first] rest
  | (none, _) => return ([], text)

/-- The text behind its first byte. A character of several bytes is not taken apart. -/
def afterByte : List Char → List Char
  | [] => []
  | c :: rest => if c.utf8Size = 1 then rest else c :: rest

/-! ## Blanks and comments -/

/-- Spaces and tabs. -/
def isSpace (c : Char) : Bool :=
  c == ' ' || c == '\t'

/-- The text without the spaces and tabs at its start. -/
def skipSpaces (text : List Char) : List Char :=
  text.dropWhile isSpace

/-- A character that may stand in a comment: no control character but the tab. -/
def isPrintable (c : Char) : Bool :=
  c == '\t' || (0x20 ≤ c.toNat && c.toNat != 0x7F)

/-- What is left behind the line break at the start of a text, if there is one. -/
def lineBreak? : List Char → Option (List Char)
  | '\n' :: rest => some rest
  | '\r' :: '\n' :: rest => some rest
  | _ => none

/-- The text without the spaces, tabs and line breaks at its start. -/
def skipBlank : List Char → List Char
  | ' ' :: rest => skipBlank rest
  | '\t' :: rest => skipBlank rest
  | '\n' :: rest => skipBlank rest
  | '\r' :: '\n' :: rest => skipBlank rest
  | text => text

/-- The text without the comment at its start. -/
def skipComment (text : List Char) : List Char :=
  match text with
  | '#' :: rest => rest.dropWhile isPrintable
  | _ => text

/-- A line break. -/
def lineBreak (text : List Char) : Except Failure (List Char) :=
  match lineBreak? text with
  | some rest => .ok rest
  | none => miss (afterByte text)

/-- Skips blanks, comments and line breaks. A comment must end with its line. -/
def skipLines (text : List Char) : Except Failure (List Char) := do
  let ((), rest) ← loop (fun () text =>
    match text with
    | c :: rest =>
      if isSpace c then .ok (some ((), rest))
      else if c = '#' || c = '\n' || c = '\r' then
        (lineBreak (skipComment text)).map fun after => some ((), after)
      else .ok none
    | [] => .ok none) () text
  return rest

/-- A line break or the end of the text. -/
def lineEnd (text : List Char) : Except Failure (List Char) :=
  match text, lineBreak? text with
  | [], _ => .ok []
  | _, some rest => .ok rest
  | _, none => miss text

/-- What is left behind the end of a line with something in it: spaces, a comment, and a line break
or the end of the text. -/
def endLine (text : List Char) : Except Failure (List Char) :=
  expecting ["newline", "`#`"] (lineEnd (skipComment (skipSpaces text)))

end PhasedTests.Toml
