import PhasedTests.Toml.Content
import PhasedTests.Toml.Number

/-!
# TOML documents

A document is a sequence of lines: key and value, table header, comment, or nothing. Arrays may
span lines, inline tables may not. Arrays and inline tables may be nested 79 deep, and a key may
have 79 parts.
-/

namespace PhasedTests.Toml

open Config (Value)

/-! ## Keys -/

/-- A character of an unquoted key. -/
def isKeyChar (c : Char) : Bool :=
  c.isAlphanum || c == '-' || c == '_'

/-- The name of one part of a key: quoted or bare. -/
def keyName : Parser (List Char) := fun text =>
  match text with
  | '"' :: rest => basicString rest
  | '\'' :: rest => literalString rest
  | _ =>
    let chars := text.takeWhile isKeyChar
    if chars.isEmpty then miss text else .ok (chars, text.drop chars.length)

/-- One part of a key with spaces around it. -/
def keyPart : Parser Key := fun text => do
  let start := skipSpaces text
  let (chars, rest) ← keyName start
  return (⟨String.ofList chars, ⟨start, rest⟩⟩, skipSpaces rest)

/-- A key: parts with points between them. -/
def key : Parser (List Key) := fun text => do
  let (parts, rest) ← labelled "key" do
    let (first, rest) ← keyPart text
    moreItems '.' keyPart [first] rest
  if 80 ≤ parts.length then throw ⟨text, .ofCause .tooDeep, false⟩ else return (parts, rest)

/-! ## Values -/

/-- A word that stands for a value. -/
def word (expected : List Char) (value : Literal) : Parser Literal := fun text =>
  if expected.isPrefixOf text then .ok (value, text.drop expected.length)
  else expecting ["`\"`", "`'`"] (labelled "string" (miss text))

/-- A number, a date or a time. -/
def numberOrDate : Parser Literal := fun text =>
  match dateTime? text with
  | some result => commit (result.map fun (chars, rest) => (.date (String.ofList chars), rest))
  | none =>
    match float? text with
    | some result => result
    | none => integer text

/-- A value that is not made of other values. -/
def literal : Parser Literal := fun text =>
  match string? text, text with
  | some result, _ => result.map fun (chars, rest) => (.text (String.ofList chars), rest)
  | none, 't' :: _ => commit (word ['t', 'r', 'u', 'e'] (.bool true) text)
  | none, 'f' :: _ => commit (word ['f', 'a', 'l', 's', 'e'] (.bool false) text)
  | none, 'i' :: _ => word ['i', 'n', 'f'] (.float (1.0 / 0.0)) text
  | none, 'n' :: _ => word ['n', 'a', 'n'] (.float (0.0 / 0.0)) text
  | none, '_' :: _ => expecting ["leading digit"] (labelled "integer" (miss text))
  | none, '.' :: _ => expecting ["leading digit"] (labelled "floating-point number" (miss text))
  | none, c :: _ =>
    if c == '+' || c == '-' || c.isDigit then numberOrDate text
    else expecting ["`\"`", "`'`"] (labelled "string" (miss text))
  | none, [] => miss []

/-- The items of an array behind its bracket, given how to read one. -/
def arrayItems (item : Parser Item) : Parser (List Item) := fun text => do
  let (items, rest) ← separated ',' (fun text => do
    let (found, rest) ← item (← skipLines text)
    return (found, ← skipLines rest)) text
  let rest := match rest with
    | ',' :: inner => if items.isEmpty then rest else inner
    | _ => rest
  let rest ← commit (skipLines rest)
  match rest with
  | ']' :: after => return (items, after)
  | _ => commit (expecting ["`]`"] (labelled "array" (miss rest)))

/-- A key, an equals sign and a value. -/
def pair (item : Parser Item) : Parser (List Key × Item) := fun text => do
  let (parts, rest) ← key text
  commit <|
    match rest with
    | '=' :: rest => do
      let (found, rest) ← item (skipSpaces rest)
      return ((parts, found), skipSpaces rest)
    | _ => expecting ["`.`", "`=`"] (miss rest)

/-- The last part of a key, and the parts before it. -/
def splitKey (parts : List Key) : Option (List Key × Key) :=
  parts.getLast?.map fun key => (parts.dropLast, key)

/-- The entries of an inline table behind its brace, given how to read a value. -/
def inlineEntries (item : Parser Item) : Parser Entries := fun text => do
  let (pairs, rest) ← commit (separated ',' (pair item) text)
  let entries := pairs.foldlM (fun entries (parts, found) =>
    match splitKey parts with
    | some (path, key) => setInline key found [] entries path
    | none => .ok entries) ([] : Entries)
  match entries, skipSpaces rest with
  | .error cause, _ => reject text cause
  | .ok entries, '\x7d' :: after => return (entries, after)
  | .ok _, rest => commit (expecting ["`\x7d`"] (labelled "inline table" (miss rest)))

/-- A value in which arrays and inline tables are nested at most `depth` deep. -/
def value (depth : Nat) : Parser Item := fun text =>
  match text, depth with
  | '[' :: rest, 0 => reject rest .tooDeep
  | '\x7b' :: rest, 0 => reject rest .tooDeep
  | '[' :: rest, depth + 1 =>
    (commit (arrayItems (value depth) rest)).map fun (items, after) =>
      (.array ⟨text, after⟩ items, after)
  | '\x7b' :: rest, depth + 1 =>
    (commit (inlineEntries (value depth) rest)).map fun (entries, after) =>
      (.inline (some ⟨text, after⟩) entries, after)
  | _, _ => (literal text).map fun (found, rest) => (.literal ⟨text, rest⟩ found, rest)

/-! ## Lines -/

/-- A document as far as it is read: all tables, and the key of the one that is open. -/
structure Draft where
  root : Entries
  opened : List Key

/-- The change of a document that a line makes, which can be refused at the start of the line. -/
def Draft.update (text : List Char) (opened : List Key) (rest : List Char) :
    Except Cause Entries → Except Failure (Draft × List Char)
  | .ok root => .ok (⟨root, opened⟩, rest)
  | .error cause => reject text cause

/-- A line with a table header. -/
def headerLine (draft : Draft) (text : List Char) : Except Failure (Draft × List Char) :=
  labelled "table header" do
    let (isRow, inner) ← match text with
      | '[' :: '[' :: rest => .ok (true, rest)
      | '[' :: c :: rest => .ok (false, c :: rest)
      | _ => miss text
    let closing := if isRow then [']', ']'] else [']']
    let (parts, rest) ← key inner
    if !closing.isPrefixOf rest then
      expecting ["`.`", Cause.quote (String.ofList closing)] (miss rest)
    else
      let after := rest.drop closing.length
      let next ← endLine after
      match splitKey parts with
      | none => miss rest
      | some (path, key) =>
        let header : Stretch := ⟨text, after⟩
        Draft.update text parts next
          ((if isRow then openRow else openTable) path key header draft.root)

/-- A line with a key and a value. -/
def pairLine (draft : Draft) (text : List Char) : Except Failure (Draft × List Char) := do
  let ((parts, found), rest) ← pair (value 79) text
  let next ← endLine rest
  match splitKey parts with
  | none => miss text
  | some (path, key) =>
    Draft.update text draft.opened next
      (descend .passed [] (setValue draft.opened path key found) .passed draft.root draft.opened)

/-- One line of a document. -/
def documentLine (draft : Draft) (text : List Char) :
    Except Failure (Option (Draft × List Char)) :=
  match skipSpaces text with
  | [] => .ok none
  | '[' :: rest => (headerLine draft ('[' :: rest)).map some
  | c :: rest =>
    if c = '#' then (lineEnd (skipComment (c :: rest))).map fun after => some (draft, after)
    else if c = '\n' || c = '\r' then (lineEnd (c :: rest)).map fun after => some (draft, after)
    else (pairLine draft (c :: rest)).map some

/-- The fault of a stretch of a text. -/
def Error.ofStretch (text : List Char) (stretch : Stretch) (fault : Fault) : Error :=
  .faulty text (byteLength text - byteLength stretch.start)
    (byteLength stretch.start - byteLength stretch.stop) fault

/-- The entries of a TOML text. A mark of the byte order may stand at its start. -/
def parse (text : String) : Except Error (List (String × Value)) :=
  let chars := text.toList
  let start := match chars with
    | '\uFEFF' :: rest => rest
    | _ => chars
  match loop documentLine ⟨[], []⟩ start with
  | .error ⟨rest, fault, _⟩ => .error (.ofStretch chars ⟨rest, rest.drop 1⟩ fault)
  | .ok (draft, _) =>
    match tableValue draft.root with
    | .ok (.text date) => .error (.noTable date)
    | .ok value => .ok value.entries
    | .error ⟨stretch, cause⟩ => .error (.ofStretch chars stretch (.ofCause cause))

end PhasedTests.Toml
