import PhasedTests.Toml.Parser

/-!
# TOML strings

Basic strings stand between double quotes and know escapes, literal strings stand between single
quotes and know none. Both can be written over several lines between three quotes each; then one or
two quotes may also stand inside, and right before the closing ones.
-/

namespace PhasedTests.Toml

/-! ## Escapes -/

/-- The value of a hexadecimal digit. -/
def hexValue? (c : Char) : Option Nat :=
  if '0' ≤ c ∧ c ≤ '9' then some (c.toNat - '0'.toNat)
  else if 'a' ≤ c ∧ c ≤ 'f' then some (c.toNat - 'a'.toNat + 10)
  else if 'A' ≤ c ∧ c ≤ 'F' then some (c.toNat - 'A'.toNat + 10)
  else none

/-- The character that a letter behind a backslash stands for. -/
def escaped? : Char → Option Char
  | 'b' => some '\x08'
  | 'f' => some '\x0c'
  | 'n' => some '\n'
  | 'r' => some '\r'
  | 't' => some '\t'
  | '\\' => some '\\'
  | '"' => some '"'
  | _ => none

/-- What may stand behind a backslash. -/
def escapeLetters : List String :=
  ["b", "f", "n", "r", "t", "u", "U", "\\", "\""].map Cause.quote

/-- A character given by `count` hexadecimal digits. -/
def hexEscape (count : Nat) : Parser Char := fun text =>
  match (text.take count).mapM hexValue? with
  | some values =>
    let code := values.foldl (fun code value => 16 * code + value) 0
    if values.length < count then commit (miss text)
    else if code.isValidChar then .ok (Char.ofNat code, text.drop count)
    else reject text .outOfRange
  | none => commit (miss text)

/-- What stands behind a backslash, if anything does. -/
def escape : Parser (Option Char) := fun text =>
  match text with
  | [] => .ok (none, [])
  | 'u' :: rest =>
    (labelled "unicode 4-digit hex code" (hexEscape 4 rest)).map fun (c, rest) => (some c, rest)
  | 'U' :: rest =>
    (labelled "unicode 8-digit hex code" (hexEscape 8 rest)).map fun (c, rest) => (some c, rest)
  | c :: rest =>
    match escaped? c with
    | some found => .ok (some found, rest)
    | none =>
      commit (expecting escapeLetters (labelled "escape sequence" (miss (afterByte text))))

/-! ## Strings on one line -/

/-- A character that stands for itself in a basic string. -/
def isBasicChar (c : Char) : Bool :=
  isPrintable c && c != '"' && c != '\\'

/-- A character that stands for itself in a literal string. -/
def isLiteralChar (c : Char) : Bool :=
  isPrintable c && c != '\''

/-- Adds the characters that stand for themselves to what is read of a string, if there are any. -/
def plainChunk? (isPlain : Char → Bool) (chars text : List Char) :
    Option (List Char × List Char) :=
  let chunk := text.takeWhile isPlain
  if chunk.isEmpty then none else some (chars ++ chunk, text.drop chunk.length)

/-- A basic string behind its opening quote. -/
def basicString : Parser (List Char) := fun text => do
  let (chars, rest) ← loop (fun chars text =>
    match plainChunk? isBasicChar chars text, text with
    | some next, _ => .ok (some next)
    | none, '\\' :: inner => do
      match ← escape inner with
      | (some c, after) => return some (chars ++ [c], after)
      | (none, _) => return none
    | none, _ => .ok none) [] text
  match rest with
  | '"' :: after => return (chars, after)
  | _ => commit (labelled "basic string" (miss rest))

/-- A literal string behind its opening quote. -/
def literalString : Parser (List Char) := fun text =>
  let chars := text.takeWhile isLiteralChar
  match text.drop chars.length with
  | '\'' :: after => .ok (chars, after)
  | rest => commit (labelled "literal string" (miss rest))

/-! ## Strings over several lines -/

/-- A string over several lines as far as it is read. -/
structure Lines where
  chars : List Char
  /-- The text where one or two quotes began, if they are the last that was read. -/
  quotes : Option (List Char)

namespace Lines

/-- Adds a character. -/
def push (read : Lines) (c : Char) : Lines :=
  ⟨read.chars ++ [c], none⟩

/-- What is read of a string before its first character. A line break right behind the opening
quotes is left out. -/
def begin (text : List Char) : Lines × List Char :=
  (⟨[], none⟩, (lineBreak? text).getD text)

/-- Reads on in a string: characters that stand for themselves, a line break, or one or two quotes;
nothing at three quotes. -/
def step? (quote : Char) (isPlain : Char → Bool) (read : Lines) (text : List Char) :
    Option (Lines × List Char) :=
  match plainChunk? isPlain read.chars text with
  | some (chars, rest) => some (⟨chars, none⟩, rest)
  | none =>
    match lineBreak? text with
    | some rest => some (read.push '\n', rest)
    | none =>
      match text with
      | c :: rest =>
        if c = quote && !([quote, quote].isPrefixOf rest) then
          some (⟨read.chars ++ [c], read.quotes <|> some text⟩, rest)
        else none
      | [] => none

/-- The end of a string: three quotes behind up to two that belong to it. If they are missing, the
fault is where the last quotes began. -/
def close (quote : Char) (read : Lines) (text : List Char) :
    Except Failure (List Char × List Char) :=
  let count := (text.takeWhile (· == quote)).length
  if 3 ≤ count then
    let inside := min (count - 3) 2
    .ok (read.chars ++ List.replicate inside quote, text.drop (inside + 3))
  else commit (miss (read.quotes.getD text))

end Lines

/-- A basic string over several lines behind its opening quotes. A backslash at the end of a line
swallows all blanks up to the next character. -/
def basicLines : Parser (List Char) := fun text => do
  let (start, rest) := Lines.begin text
  let (read, rest) ← loop (fun read text =>
    match read.step? '"' isBasicChar text, text with
    | some next, _ => .ok (some next)
    | none, '\\' :: inner =>
      if (lineBreak? (skipSpaces inner)).isSome then
        .ok (some (⟨read.chars, none⟩, skipBlank inner))
      else
        match escape inner with
        | .ok (some c, after) => .ok (some (read.push c, after))
        | .ok (none, _) => .ok none
        | .error failure =>
          .error (if read.quotes.isSome then { failure with rest := text } else failure)
    | none, _ => .ok none) start rest
  read.close '"' rest

/-- A literal string over several lines behind its opening quotes. -/
def literalLines : Parser (List Char) := fun text => do
  let (start, rest) := Lines.begin text
  let (read, rest) ← loop (fun read text => .ok (read.step? '\'' isLiteralChar text)) start rest
  read.close '\'' rest

/-- A string in one of its four forms, if a quote comes first. -/
def string? (text : List Char) : Option (Except Failure (List Char × List Char)) :=
  match text with
  | '"' :: '"' :: '"' :: rest => some (labelled "multiline basic string" (basicLines rest))
  | '"' :: rest => some (basicString rest)
  | '\'' :: '\'' :: '\'' :: rest => some (labelled "multiline literal string" (literalLines rest))
  | '\'' :: rest => some (literalString rest)
  | _ => none

end PhasedTests.Toml
