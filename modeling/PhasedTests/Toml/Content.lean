import PhasedTests.Config.Value
import PhasedTests.Toml.Date
import PhasedTests.Toml.Table

/-!
# The content of a TOML document

The configuration values that the tables of a document stand for. A date or a time may also be
written as a table whose first key is `dateKey`: such a table stands for the date that the string
under this key holds, whatever else is in it.
-/

namespace PhasedTests.Toml

open Config (Value)

/-- The key under which a table holds a date or a time instead of entries. -/
def dateKey : String :=
  "$__toml_private_datetime"

/-- What is wrong with the content of a document, and where. -/
structure Misplaced where
  stretch : Stretch
  cause : Cause

namespace Item

/-- Where an item is written. An array of tables reaches from its first header to its last one;
tables that were made on the way are written nowhere. -/
def stretch? : Item → Option Stretch
  | literal stretch _ => some stretch
  | array stretch _ => some stretch
  | inline stretch _ => stretch
  | table (.opened header) _ => some header
  | table _ _ => none
  | tables rows =>
    match rows.head?, rows.getLast? with
    | some (first, _), some (last, _) => some ⟨first.start, last.stop⟩
    | _, _ => none

/-- How a message calls an item that should be the text of a date. -/
def description : Item → String
  | literal _ value => value.description
  | array _ _ => "sequence"
  | tables _ => "sequence"
  | _ => "map"

end Item

/-- The date or the time that a table with an item under `dateKey` stands for. -/
def dateValue (key : Key) (item : Item) : Except Misplaced Value :=
  match item with
  | .literal stretch (.text text) =>
    match normalDate? text with
    | some date => .ok (.text date)
    | none => .error ⟨stretch, .noDate⟩
  | _ => .error ⟨item.stretch?.getD key.stretch, .noDateText item.description⟩

mutual

/-- The value of an item. -/
def itemValue : Item → Except Misplaced Value
  | .literal _ value => .ok value.toValue
  | .array _ items => (itemValues items).map .array
  | .inline _ entries => tableValue entries
  | .table _ entries => tableValue entries
  | .tables rows => (rowValues rows).map .array

/-- The value of a table. -/
def tableValue : List (Key × Item) → Except Misplaced Value
  | [] => .ok (.table [])
  | (key, item) :: rest =>
    if key.name = dateKey then dateValue key item
    else do
      let value ← itemValue item
      let others ← entryValues rest
      return .table ((key.name, value) :: others)

/-- The values of entries. -/
def entryValues : List (Key × Item) → Except Misplaced (List (String × Value))
  | [] => .ok []
  | (key, item) :: rest => do
    let value ← itemValue item
    let others ← entryValues rest
    return (key.name, value) :: others

/-- The values of items. -/
def itemValues : List Item → Except Misplaced (List Value)
  | [] => .ok []
  | item :: rest => do
    let value ← itemValue item
    let others ← itemValues rest
    return value :: others

/-- The values of the tables of an array. -/
def rowValues : List (Stretch × List (Key × Item)) → Except Misplaced (List Value)
  | [] => .ok []
  | (_, entries) :: rest => do
    let value ← tableValue entries
    let others ← rowValues rest
    return value :: others

end

end PhasedTests.Toml
