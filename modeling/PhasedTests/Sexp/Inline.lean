import PhasedTests.Decimal.Positional
import PhasedTests.Text.Blank
import PhasedTests.Text.Quoted
import PhasedTests.Tree.Basic

/-!
# Inline text

The one-line written form of scalars and trees: `(tag child ...)`. A symbol is a colon and its
name, quoted if the name is empty or holds a blank or a delimiter. A finite float always has a
decimal point and never an exponent.
-/

namespace PhasedTests

open Text

/-- A character that ends a bare symbol. -/
def isDelimiter (c : Char) : Bool :=
  isBlank c || c == '(' || c == ')' || c == '"' || c == ';'

namespace Scalar

/-- The text of a float: `nan`, `inf`, `-inf`, or positional digits with a point. -/
def floatChars (x : Float) : List Char :=
  if x.isNaN then ['n', 'a', 'n']
  else if x.isInf then
    if Decimal.isNegative x then ['-', 'i', 'n', 'f'] else ['i', 'n', 'f']
  else
    let digits := Decimal.finiteChars x
    if digits.contains '.' then digits else digits ++ ['.', '0']

/-- The written form of a symbol. -/
def symbolChars (name : List Char) : List Char :=
  if name.isEmpty || name.any isDelimiter then ':' :: Quoted.encode name else ':' :: name

/-- The written form of a scalar. -/
def inlineChars : Scalar → List Char
  | symbol name => symbolChars name.toList
  | text value => Quoted.encode value.toList
  | int value => Numeral.ofInt value.toInt
  | float value => floatChars value
  | nil => ['n', 'i', 'l']

end Scalar

namespace Tree

mutual

/-- The written form of a tree on one line. -/
def inlineChars : Tree → List Char
  | node tag children _ => '(' :: (tag.toList ++ inlineTail children)
  | leaf value => value.inlineChars

/-- The written forms of children, each after a space, and the closing parenthesis. -/
def inlineTail : List Tree → List Char
  | [] => [')']
  | t :: rest => ' ' :: (inlineChars t ++ inlineTail rest)

end

/-- The written form of a tree on one line, as a string. -/
def inline (t : Tree) : String :=
  String.ofList t.inlineChars

end Tree

end PhasedTests
