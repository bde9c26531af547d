import PhasedTests.Decimal.Nearest
import PhasedTests.Toml.Literal
import PhasedTests.Toml.Quoted

/-!
# TOML numbers

Whole numbers of 64 bits in four bases, and floats. Single underscores may stand between digits, and
numbers in base ten have no leading zeros.
-/

namespace PhasedTests.Toml

open Text

/-- Digits behind a first one; single underscores may stand between them. -/
def moreDigits (isDigit : Char → Bool) : Parser (List Char)
  | '_' :: rest =>
    match rest with
    | c :: later =>
      if isDigit c then do
        let (digits, after) ← moreDigits isDigit later
        return (c :: digits, after)
      else commit (expecting ["digit"] (miss rest))
    | [] => commit (expecting ["digit"] (miss rest))
  | c :: rest =>
    if isDigit c then do
      let (digits, after) ← moreDigits isDigit rest
      return (c :: digits, after)
    else .ok ([], c :: rest)
  | [] => .ok ([], [])

/-- At least one digit. -/
def someDigits (isDigit : Char → Bool) : Parser (List Char) := fun text =>
  match text with
  | c :: rest =>
    if isDigit c then do
      let (digits, after) ← moreDigits isDigit rest
      return (c :: digits, after)
    else miss text
  | [] => miss text

/-- Whether a sign makes a number negative, and the text behind the sign, if there is one. -/
def signOf (text : List Char) : Bool × List Char :=
  match text with
  | '-' :: rest => (true, rest)
  | '+' :: rest => (false, rest)
  | _ => (false, text)

/-- A whole number in base ten: whether it is negative, and its digits. -/
def decimalDigits : Parser (Bool × List Char) := fun text =>
  labelled "integer" do
    let (negative, rest) := signOf text
    match rest with
    | '0' :: after => return ((negative, ['0']), after)
    | _ =>
      let (digits, after) ← someDigits Numeral.isDigit rest
      return ((negative, digits), after)

/-- A whole number in another base, behind its letter. -/
def basedInt (name : String) (base : Nat) (isDigit : Char → Bool) (start : List Char) :
    Parser Literal := fun text => do
  let (digits, after) ← labelled name (commit (someDigits isDigit text))
  let value := digits.foldl (fun value c => base * value + (hexValue? c).getD 0) 0
  if (value : Int) ≤ Int64.maxValue.toInt then return (.int value, after)
  else reject start .tooLarge

/-- A whole number. -/
def integer : Parser Literal := fun start =>
  match start with
  | '0' :: 'x' :: rest =>
    basedInt "hexadecimal integer" 16 (fun c => (hexValue? c).isSome) start rest
  | '0' :: 'o' :: rest => basedInt "octal integer" 8 (fun c => '0' ≤ c && c ≤ '7') start rest
  | '0' :: 'b' :: rest => basedInt "binary integer" 2 (fun c => c == '0' || c == '1') start rest
  | _ => do
    let ((negative, digits), rest) ← decimalDigits start
    match Numeral.toInt64? negative digits with
    | some value => return (.int value.toInt, rest)
    | none => reject start (if negative then .tooSmall else .tooLarge)

/-- The exponent of a float behind its letter. -/
def exponentPart : Parser Int := fun text => do
  let (negative, rest) := signOf text
  let (digits, after) ← commit (someDigits Numeral.isDigit rest)
  let value : Int := Numeral.ofDigits digits
  return (if negative then -value else value, after)

/-- The places of a float behind its point. -/
def fractionPart : Parser (List Char) := fun text =>
  expecting ["digit"] (commit (someDigits Numeral.isDigit text))

/-- The places and the exponent of a float behind its whole part, if one of them is there. -/
def floatTail? (text : List Char) : Option (Except Failure ((List Char × Int) × List Char)) :=
  match text with
  | c :: rest =>
    if c == 'e' || c == 'E' then
      some ((exponentPart rest).map fun (exponent, after) => (([], exponent), after))
    else if c == '.' then some do
      let (places, after) ← fractionPart rest
      match after with
      | c :: rest =>
        if c == 'e' || c == 'E' then do
          let (exponent, after) ← exponentPart rest
          return ((places, exponent), after)
        else return ((places, 0), after)
      | [] => return ((places, 0), after)
    else none
  | [] => none

/-- One of the floats that have no digits, behind its sign. -/
def specialFloat? (negative : Bool) : List Char → Option (Float × List Char)
  | 'i' :: 'n' :: 'f' :: rest => some (if negative then -1.0 / 0.0 else 1.0 / 0.0, rest)
  | 'n' :: 'a' :: 'n' :: rest => some (0.0 / 0.0, rest)
  | _ => none

/-- A float, if the text does not begin otherwise. One that is too large is a fault unless it is
negative. -/
def float? (start : List Char) : Option (Except Failure (Literal × List Char)) :=
  let special := (specialFloat? (signOf start).1 (signOf start).2).map fun (value, rest) =>
    (.ok (.float value, rest) : Except Failure (Literal × List Char))
  match decimalDigits start with
  | .error failure =>
    if failure.committed then some (labelled "floating-point number" (.error failure))
    else special
  | .ok ((negative, whole), rest) =>
    (floatTail? rest).map fun result => labelled "floating-point number" do
      let ((places, exponent), after) ← result
      let value := Decimal.toFloat negative (Numeral.ofDigits (whole ++ places))
        (exponent - (places.length : Int))
      if value.isInf && !negative then commit (miss start) else return (.float value, after)

end PhasedTests.Toml
