import PhasedTests.Decimal.Nearest
import PhasedTests.Sexp.Inline

/-!
# Tokens

The tokens of S-expression text and the longest-match rule for the next one. A text is read as a
list of characters; each step names the characters it takes, so what a token covers and what is
left always make up the text again.
-/

namespace PhasedTests

open Text

/-- A token: a parenthesis, a scalar, or the bare word that a tag is. -/
inductive Token where
  | openParen
  | closeParen
  | scalar (value : Scalar)
  | ident (name : String)

namespace Token

/-- How error messages call a token. -/
def describe : Token → String
  | openParen => "'('"
  | closeParen => "')'"
  | scalar .nil => "nil"
  | scalar (.symbol _) => "symbol"
  | scalar (.text _) => "string"
  | scalar (.int _) => "integer"
  | scalar (.float _) => "float"
  | ident _ => "identifier"

end Token

/-- What stands at the start of a text: a token or characters that are none, and in both cases the
characters taken. -/
structure Match where
  token : Option Token
  taken : List Char

namespace Match

/-- A character that may start a bare word. -/
def isWordStart (c : Char) : Bool :=
  ('a' ≤ c && c ≤ 'z') || ('A' ≤ c && c ≤ 'Z') || c == '_'

/-- A character that may continue a bare word. -/
def isWordRest (c : Char) : Bool :=
  isWordStart c || Numeral.isDigit c

/-- A bare word is a tag, except for three that are scalars. -/
def ofWord (word : List Char) : Token :=
  if word = ['n', 'i', 'l'] then .scalar .nil
  else if word = ['i', 'n', 'f'] then .scalar (.float (Float.ofBits 0x7FF0000000000000))
  else if word = ['n', 'a', 'n'] then .scalar (.float (Float.ofBits 0x7FF8000000000000))
  else .ident (String.ofList word)

/-- The fraction at the start of a text: a point and at least one digit. -/
def fraction : List Char → List Char
  | '.' :: rest =>
    match rest.takeWhile Numeral.isDigit with
    | [] => []
    | digits => '.' :: digits
  | _ => []

/-- The sign at the start of a text, if any. -/
def sign : List Char → List Char
  | '-' :: _ => ['-']
  | '+' :: _ => ['+']
  | _ => []

/-- The exponent at the start of a text: the letter, a sign if any, and at least one digit. -/
def exponent : List Char → List Char
  | c :: rest =>
    if c = 'e' ∨ c = 'E' then
      match (rest.drop (sign rest).length).takeWhile Numeral.isDigit with
      | [] => []
      | digits => c :: (sign rest ++ digits)
    else []
  | [] => []

/-- The power of ten that an exponent's characters stand for; none stand for zero. -/
def exponentValue (chars : List Char) : Int :=
  let digits := chars.filter Numeral.isDigit
  if chars.contains '-' then -(Numeral.ofDigits digits : Int) else Numeral.ofDigits digits

/-- The number with these whole digits that starts in `rest`: a float if a fraction or an exponent
follows, otherwise an integer, which is no token when it does not fit into 64 bits. -/
def ofNumber (negative : Bool) (whole rest : List Char) : Match :=
  let signChars := if negative then ['-'] else []
  let places := fraction rest
  let power := exponent (rest.drop places.length)
  if places.isEmpty && power.isEmpty then
    ⟨(Numeral.toInt64? negative whole).map fun value => .scalar (.int value), signChars ++ whole⟩
  else
    let digits := whole ++ places.drop 1
    let value := Decimal.toFloat negative (Numeral.ofDigits digits)
      (exponentValue power - ((places.drop 1).length : Int))
    ⟨some (.scalar (.float value)), signChars ++ (whole ++ (places ++ power))⟩

/-- A quoted body behind `opening`; without a closing quote there is no token. -/
def ofQuoted (opening rest : List Char) (scalar : String → Scalar) : Match :=
  let (body, after) := Quoted.splitBody rest
  match after with
  | '"' :: _ =>
    ⟨some (.scalar (scalar (String.ofList (Quoted.unescape body)))), opening ++ (body ++ ['"'])⟩
  | _ => ⟨none, opening ++ body⟩

/-- What stands at the start of the text `c :: rest`. A character that starts no token is taken
alone. -/
def atStart (c : Char) (rest : List Char) : Match :=
  if c = '(' then ⟨some .openParen, [c]⟩
  else if c = ')' then ⟨some .closeParen, [c]⟩
  else if c = '"' then ofQuoted [c] rest .text
  else if c = ':' then
    match rest with
    | '"' :: body => ofQuoted [c, '"'] body .symbol
    | _ =>
      match rest.takeWhile fun c => !isDelimiter c with
      | [] => ⟨none, [c]⟩
      | name => ⟨some (.scalar (.symbol (String.ofList name))), c :: name⟩
  else if isWordStart c then
    let word := c :: rest.takeWhile isWordRest
    ⟨some (ofWord word), word⟩
  else if c = '-' then
    match rest with
    | 'i' :: 'n' :: 'f' :: _ =>
      ⟨some (.scalar (.float (Float.ofBits 0xFFF0000000000000))), ['-', 'i', 'n', 'f']⟩
    | _ =>
      match rest.takeWhile Numeral.isDigit with
      | [] => ⟨none, [c]⟩
      | whole => ofNumber true whole (rest.drop whole.length)
  else if Numeral.isDigit c then
    let whole := c :: rest.takeWhile Numeral.isDigit
    ofNumber false whole (rest.dropWhile Numeral.isDigit)
  else ⟨none, [c]⟩

end Match

end PhasedTests
