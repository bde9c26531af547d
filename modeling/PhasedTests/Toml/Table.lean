import PhasedTests.Toml.Literal
import PhasedTests.Toml.Parser

/-!
# TOML tables

How headers and dotted keys define tables. A table that a longer header or a dotted key made on the
way is implicit: a header may still open it. A table that was opened or a value that was set cannot
be defined again, and dotted keys only extend tables that dotted keys made. Inline tables are closed
where they end. The entries of a table are in the order in which they were made; a header that opens
a table makes it anew.
-/

namespace PhasedTests.Toml

/-- One part of a key, and where it is written. -/
structure Key where
  name : String
  stretch : Stretch

/-- How a table came to be. -/
inductive Origin where
  /-- Opened by its own header. -/
  | opened (header : Stretch)
  /-- Made on the way to another table. -/
  | passed
  /-- Made by a dotted key. -/
  | dotted

/-- Whether a dotted key made a table. -/
def Origin.isDotted : Origin → Bool
  | dotted => true
  | _ => false

/-- What a key of a table or a place of an array holds. -/
inductive Item where
  | literal (stretch : Stretch) (value : Literal)
  | array (stretch : Stretch) (items : List Item)
  /-- An inline table; one that a dotted key made is written nowhere. -/
  | inline (stretch : Option Stretch) (entries : List (Key × Item))
  | table (origin : Origin) (entries : List (Key × Item))
  /-- An array of tables: each with its header. -/
  | tables (rows : List (Stretch × List (Key × Item)))

/-- The entries of a table. -/
abbrev Entries := List (Key × Item)

namespace Item

/-- How a message calls the type of an item. -/
def typeName : Item → String
  | literal _ value => value.typeName
  | array _ _ => "array"
  | inline _ _ => "inline table"
  | table _ _ => "table"
  | tables _ => "array of tables"

end Item

namespace Entries

/-- The item under a key. -/
def find? (entries : Entries) (key : Key) : Option Item :=
  (List.find? (fun entry => entry.1.name == key.name) entries).map (·.2)

/-- The entries in which a key holds `item`; a new key comes last. -/
def set (key : Key) (item : Item) : Entries → Entries
  | [] => [(key, item)]
  | (other, old) :: rest =>
    if other.name == key.name then (other, item) :: rest else (other, old) :: set key item rest

/-- The entries in which a key comes last and holds `item`. -/
def setLast (entries : Entries) (key : Key) (item : Item) : Entries :=
  List.filter (fun entry => entry.1.name != key.name) entries ++ [(key, item)]

end Entries

/-- A key as a message about headers shows it: between quotes, control characters by their number.
Characters beyond ASCII are shown as they are. -/
def Key.shown (key : Key) : String :=
  let shownChar (c : Char) : List Char :=
    if c = '\x00' then ['\\', '0']
    else if c = '"' ∨ c = '\\' ∨ c = '\n' ∨ c = '\r' ∨ c = '\t' then
      ((Text.Quoted.encode [c]).drop 1).dropLast
    else if c.toNat < 0x20 ∨ (0x7F ≤ c.toNat ∧ c.toNat < 0xA0) then
      ['\\', 'u', '\x7b'] ++ Nat.toDigits 16 c.toNat ++ ['\x7d']
    else [c]
  String.ofList ('"' :: key.name.toList.flatMap shownChar ++ ['"'])

/-- The fault of a header for a key that is taken. -/
def takenIn (path : List Key) (key : Key) : Cause :=
  .duplicateKeyIn key.shown (path.map (·.name))

/-- Changes the table that a path leads to from a table. Missing tables on the way are made with
the origin `made`; `passed` are the keys so far. Dotted keys do not enter opened tables. -/
def descend (made : Origin) (passed : List String)
    (change : Origin → Entries → Except Cause Entries) (origin : Origin) (entries : Entries) :
    List Key → Except Cause Entries
  | [] => change origin entries
  | key :: rest => do
    let enter (origin : Origin) (inner : Entries) :=
      descend made (passed ++ [key.name]) change origin inner rest
    match Entries.find? entries key with
    | none =>
      let inner ← enter made []
      return Entries.set key (.table made inner) entries
    | some (.tables rows) =>
      match rows.getLast? with
      | some (header, row) =>
        let inner ← enter (.opened header) row
        return Entries.set key (.tables (rows.dropLast ++ [(header, inner)])) entries
      | none => return entries
    | some (.table origin inner) =>
      match made, origin with
      | .dotted, .opened _ => throw (.duplicateKey key.name)
      | _, _ =>
        let inner ← enter origin inner
        return Entries.set key (.table origin inner) entries
    | some item => throw (.notATable (passed ++ [key.name]) item.typeName)

/-- Sets a key of the table at `path` inside the table that is open. -/
def setValue (opened : List Key) (path : List Key) (key : Key) (item : Item) (origin : Origin)
    (entries : Entries) : Except Cause Entries :=
  descend .dotted [] (fun found entries =>
    if found.isDotted = path.isEmpty then throw (.duplicateKey key.name)
    else if (Entries.find? entries key).isSome then
      throw (.duplicateKeyIn key.name (opened.map (·.name)))
    else return Entries.set key item entries) origin entries path

/-- Opens the table that a header names. -/
def openTable (path : List Key) (key : Key) (header : Stretch) (root : Entries) :
    Except Cause Entries :=
  descend .passed [] (fun _ entries =>
    match Entries.find? entries key with
    | none => return Entries.setLast entries key (.table (.opened header) [])
    | some (.table .passed inner) =>
      return Entries.setLast entries key (.table (.opened header) inner)
    | some _ => throw (takenIn path key)) .passed root path

/-- Opens a new row of the array of tables that a header names. -/
def openRow (path : List Key) (key : Key) (header : Stretch) (root : Entries) :
    Except Cause Entries :=
  descend .passed [] (fun _ entries =>
    match Entries.find? entries key with
    | none => return Entries.set key (.tables [(header, [])]) entries
    | some (.tables rows) => return Entries.set key (.tables (rows ++ [(header, [])])) entries
    | some _ => throw (takenIn path key)) .passed root path

/-- Sets a key of the inline table at `path` inside an inline table. -/
def setInline (key : Key) (item : Item) (passed : List String) (entries : Entries) :
    List Key → Except Cause Entries
  | [] =>
    if (Entries.find? entries key).isSome then throw (.duplicateKey key.name)
    else return Entries.set key item entries
  | outer :: rest => do
    match Entries.find? entries outer with
    | none =>
      let inner ← setInline key item (passed ++ [outer.name]) [] rest
      return Entries.set outer (.inline none inner) entries
    | some (.inline none inner) =>
      let inner ← setInline key item (passed ++ [outer.name]) inner rest
      return Entries.set outer (.inline none inner) entries
    | some (.inline (some _) _) => throw (.duplicateKey outer.name)
    | some found => throw (.notATable (passed ++ [outer.name]) found.typeName)

end PhasedTests.Toml
