/-!
# Quoted text

Strings and awkward symbols are written between double quotes. Inside, a backslash escapes the
character after it: `n`, `t` and `r` stand for a line feed, a tab and a carriage return, and every
other escaped character stands for itself. Writing escapes exactly the quote, the backslash and
those three control characters, so written text never holds a line break.
-/

namespace PhasedTests.Text.Quoted

/-- The written form of one character. -/
def escapeChar : Char → List Char
  | '"' => ['\\', '"']
  | '\\' => ['\\', '\\']
  | '\n' => ['\\', 'n']
  | '\t' => ['\\', 't']
  | '\r' => ['\\', 'r']
  | c => [c]

/-- The written form of a text, without the quotes around it. -/
def escape (chars : List Char) : List Char :=
  chars.flatMap escapeChar

/-- The character that stands behind a backslash and `c`. -/
def unescapeChar : Char → Char
  | 'n' => '\n'
  | 't' => '\t'
  | 'r' => '\r'
  | c => c

/-- The text that a quoted body stands for. A backslash at the very end stands for nothing. -/
def unescape : List Char → List Char
  | [] => []
  | ['\\'] => []
  | '\\' :: c :: rest => unescapeChar c :: unescape rest
  | c :: rest => c :: unescape rest

/-- The text between double quotes. -/
def encode (chars : List Char) : List Char :=
  '"' :: escape chars ++ ['"']

/-- Splits off the longest run of complete body elements: characters other than the quote and the
backslash, and backslashes followed by a character that is no line feed. -/
def splitBody : List Char → List Char × List Char
  | [] => ([], [])
  | ['\\'] => ([], ['\\'])
  | '\\' :: c :: rest =>
    if c = '\n' then ([], '\\' :: c :: rest)
    else
      let (body, after) := splitBody rest
      ('\\' :: c :: body, after)
  | c :: rest =>
    if c = '"' then ([], c :: rest)
    else
      let (body, after) := splitBody rest
      (c :: body, after)

end PhasedTests.Text.Quoted
