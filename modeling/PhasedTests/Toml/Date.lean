import PhasedTests.Text.Numeral
import PhasedTests.Toml.Parser

/-!
# TOML dates and times

Dates, times, and both with or without an offset from universal time. All of them are turned into
one normal text: upper-case letters, no zeros at the end of a fraction, and an offset of hours and
minutes.
-/

namespace PhasedTests.Toml

open Text

/-! ## The normal text -/

/-- The number of days of a month. -/
def daysIn (year month : Nat) : Nat :=
  if month = 2 then
    if year % 4 = 0 ∧ (year % 100 ≠ 0 ∨ year % 400 = 0) then 29 else 28
  else if month = 4 ∨ month = 6 ∨ month = 9 ∨ month = 11 then 30
  else 31

/-- A number with at least this many digits. -/
def padded (width value : Nat) : List Char :=
  let digits := Numeral.toDigits value
  List.replicate (width - digits.length) '0' ++ digits

/-- A date. -/
def dateChars (year month day : Nat) : List Char :=
  padded 4 year ++ '-' :: padded 2 month ++ '-' :: padded 2 day

/-- The fraction of a second that some digits stand for, cut to nanoseconds. -/
def fractionChars (digits : List Char) : List Char :=
  let significant := ((digits.take 9).reverse.dropWhile (· == '0')).reverse
  if significant.isEmpty then [] else '.' :: significant

/-- A time. -/
def timeChars (hour minute second : Nat) (fraction : List Char) : List Char :=
  padded 2 hour ++ ':' :: padded 2 minute ++ ':' :: padded 2 second ++ fractionChars fraction

/-- An offset of some minutes from universal time. -/
def offsetChars (negative : Bool) (minutes : Nat) : List Char :=
  (if negative && minutes != 0 then '-' else '+') ::
    (padded 2 (minutes / 60) ++ ':' :: padded 2 (minutes % 60))

/-! ## Dates and times as values -/

/-- The number of the first `count` characters, if all of them are digits. -/
def fixedDigits? (count : Nat) (text : List Char) : Option (Nat × List Char) :=
  let digits := text.take count
  if digits.length = count && digits.all Numeral.isDigit then
    some (Numeral.ofDigits digits, text.drop count)
  else none

/-- A number of two digits within bounds. -/
def twoDigits (low high : Nat) : Parser Nat := fun text =>
  match fixedDigits? 2 text with
  | some (value, rest) =>
    if low ≤ value ∧ value ≤ high then .ok (value, rest) else reject text .outOfRange
  | none => commit (miss text)

/-- A certain character. -/
def character (expected : Char) : Parser Unit := fun text =>
  match text with
  | c :: rest => if c = expected then .ok ((), rest) else commit (miss text)
  | [] => commit (miss text)

/-- A date behind its year and a hyphen. -/
def dateAfterYear (year : Nat) : Parser (List Char) := fun text => do
  let (month, text) ← twoDigits 1 12 text
  let ((), text) ← character '-' text
  let (day, rest) ← twoDigits 1 31 text
  if daysIn year month < day then reject text .outOfRange
  else return (dateChars year month day, rest)

/-- The digits of a fraction behind its point, if both are there. -/
def fractionDigits (text : List Char) : List Char × List Char :=
  match text with
  | '.' :: rest =>
    let digits := rest.takeWhile Numeral.isDigit
    if digits.isEmpty then ([], text) else (digits, rest.drop digits.length)
  | _ => ([], text)

/-- A time behind its hour and a colon. -/
def timeAfterHour (hour : Nat) : Parser (List Char) := fun text => do
  let (minute, text) ← twoDigits 0 59 text
  let ((), text) ← character ':' text
  let (second, text) ← twoDigits 0 60 text
  let (fraction, text) := fractionDigits text
  return (timeChars hour minute second fraction, text)

/-- A time at the start of a text, if an hour and a colon come first. -/
def time? (text : List Char) : Option (Except Failure (List Char × List Char)) :=
  match fixedDigits? 2 text with
  | some (hour, ':' :: rest) => if hour ≤ 23 then some (timeAfterHour hour rest) else none
  | _ => none

/-- The offset of a time; none is written as nothing. -/
def offset : Parser (List Char) := fun text =>
  labelled "time offset" <|
    match text with
    | c :: rest =>
      if c == 'Z' || c == 'z' then .ok (['Z'], rest)
      else if c == '+' || c == '-' then do
        let (hour, rest) ← twoDigits 0 23 rest
        let ((), rest) ← character ':' rest
        let (minute, rest) ← twoDigits 0 59 rest
        return (offsetChars (c == '-') (60 * hour + minute), rest)
      else .ok ([], text)
    | [] => .ok ([], text)

/-- The time behind a date and a separator, with its offset; without a time there is no
separator either. -/
def timeAfterDate : Parser (List Char) := fun text =>
  match text with
  | separator :: rest =>
    if separator == 'T' || separator == 't' || separator == ' ' then
      match time? rest with
      | some result => do
        let (time, rest) ← result
        let (offset, rest) ← offset rest
        return ('T' :: time ++ offset, rest)
      | none => .ok ([], text)
    else .ok ([], text)
  | [] => .ok ([], text)

/-- A date or a time at the start of a text, if its first number and what follows it say so. -/
def dateTime? (text : List Char) : Option (Except Failure (List Char × List Char)) :=
  match fixedDigits? 4 text with
  | some (year, '-' :: rest) => some <| labelled "date-time" do
    let (date, rest) ← dateAfterYear year rest
    let (time, rest) ← timeAfterDate rest
    return (date ++ time, rest)
  | _ => (time? text).map (labelled "time")

/-! ## Dates and times in strings

The text of a string is read a little more freely: an hour may be 24, and the minutes of an offset
may go beyond 59 as long as it is a day at most.
-/

/-- The text behind a certain character. -/
def after? (expected : Char) : List Char → Option (List Char)
  | c :: rest => if c = expected then some rest else none
  | [] => none

/-- A date at the start of a text. -/
def dateOf? (text : List Char) : Option (List Char × List Char) := do
  let (year, text) ← fixedDigits? 4 text
  let (month, text) ← fixedDigits? 2 (← after? '-' text)
  let (day, text) ← fixedDigits? 2 (← after? '-' text)
  if 1 ≤ month ∧ month ≤ 12 ∧ 1 ≤ day ∧ day ≤ daysIn year month then
    return (dateChars year month day, text)
  else none

/-- A time at the start of a text. -/
def timeOf? (text : List Char) : Option (List Char × List Char) := do
  let (hour, text) ← fixedDigits? 2 text
  let (minute, text) ← fixedDigits? 2 (← after? ':' text)
  let (second, text) ← fixedDigits? 2 (← after? ':' text)
  let (fraction, text) := fractionDigits text
  if hour ≤ 24 ∧ minute ≤ 59 ∧ second ≤ 60 then
    return (timeChars hour minute second fraction, text)
  else none

/-- An offset that makes up a text. -/
def offsetOf? (text : List Char) : Option (List Char) :=
  match text with
  | [] => some []
  | ['Z'] => some ['Z']
  | ['z'] => some ['Z']
  | sign :: rest =>
    if sign == '+' || sign == '-' then do
      let (hours, text) ← fixedDigits? 2 rest
      let (minutes, text) ← fixedDigits? 2 (← after? ':' text)
      let total := 60 * hours + minutes
      if text.isEmpty && total ≤ 24 * 60 then return offsetChars (sign == '-') total else none
    else none

/-- The normal text of a date or a time that makes up a text. -/
def normalDate? (text : String) : Option String := do
  let chars := text.toList
  if chars[2]? = some ':' then
    match ← timeOf? chars with
    | (time, []) => return String.ofList time
    | _ => none
  else
    let (date, rest) ← dateOf? chars
    match rest with
    | [] => return String.ofList date
    | separator :: rest =>
      if separator == 'T' || separator == 't' || separator == ' ' then do
        let (time, rest) ← timeOf? rest
        let offset ← offsetOf? rest
        return String.ofList (date ++ 'T' :: time ++ offset)
      else none

end PhasedTests.Toml
