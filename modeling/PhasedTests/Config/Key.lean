import PhasedTests.Config.Value

/-!
# Configuration keys

A key is a dotted path of names, each of which may be followed by indices in brackets, such as
`hook.marker` or `list[0].name`. Spaces belong to the names, but not to the indices. Setting a value
under a key makes the tables and arrays on the way where something else stands. Negative indices
count from the end.
-/

namespace PhasedTests.Config

open Text

/-- One step of a key. -/
inductive KeyStep where
  | name (name : String)
  | index (index : Int)
  deriving DecidableEq, Repr

/-- A character of a name. -/
def isNameChar (c : Char) : Bool :=
  c.isAlphanum || c == '_' || c == '-' || c == ' '

namespace KeyStep

/-- The step that a name stands for; names are read in lower case. -/
def ofName (chars : List Char) : KeyStep :=
  .name (lowerCase (String.ofList chars))

/-- The index between brackets: digits, with or without a minus sign, within 64 bits. Spaces and
tabs may stand around it. -/
def ofIndex? (chars : List Char) : Option KeyStep :=
  let isSpace (c : Char) : Bool := c == ' ' || c == '\t'
  let trimmed := ((chars.dropWhile isSpace).reverse.dropWhile isSpace).reverse
  let (negative, digits) := match trimmed with
    | '-' :: digits => (true, digits)
    | digits => (false, digits)
  if digits.isEmpty || !digits.all Numeral.isDigit then none
  else (Numeral.toInt64? negative digits).map fun value => .index value.toInt

end KeyStep

/-- The steps behind the first name of a key. -/
def laterSteps? (chars : List Char) : Option (List KeyStep) :=
  match chars with
  | [] => some []
  | '.' :: rest =>
    let name := rest.takeWhile isNameChar
    if name.isEmpty then none
    else do
      let later ← laterSteps? (rest.drop name.length)
      return .ofName name :: later
  | '[' :: rest =>
    let index := rest.takeWhile (· ≠ ']')
    if index.length < rest.length then do
      let step ← KeyStep.ofIndex? index
      let later ← laterSteps? (rest.drop (index.length + 1))
      return step :: later
    else none
  | _ => none
termination_by chars.length
decreasing_by
  all_goals
    simp only [List.length_drop, List.length_cons]
    omega

/-- The steps of a key; the first one is a name. -/
def keySteps? (key : String) : Option (List KeyStep) :=
  let name := key.toList.takeWhile isNameChar
  if name.isEmpty then none
  else (laterSteps? (key.toList.drop name.length)).map (.ofName name :: ·)

/-- Items with nothing added at the front or at the end until `index` is in range, and that index
counted from the front. -/
def reachIndex (items : List Value) (index : Int) : List Value × Nat :=
  if 0 ≤ index then
    (items ++ List.replicate (index.toNat + 1 - items.length) .nil, index.toNat)
  else
    let back := index.natAbs
    (List.replicate (back - items.length) .nil ++ items, items.length - back)

namespace Value

/-- The value with `value` set under the steps of a key. Under a name the new value is laid over the
old one; under an index it takes its place. -/
def setAt (value : Value) : List KeyStep → Option Value → Value
  | [], _ => value
  | [.name name], root =>
    .table (updateEntry name (fun old => laidOver old value) (root.getD .nil).entries)
  | [.index index], root =>
    let (items, position) := reachIndex (root.getD .nil).items index
    .array (items.set position value)
  | .name name :: rest, root =>
    .table (updateEntry name (fun old => setAt value rest old) (root.getD .nil).entries)
  | .index index :: rest, root =>
    let (items, position) := reachIndex (root.getD .nil).items index
    .array (items.set position (setAt value rest items[position]?))

/-- The value with `value` set under a key. A text that is no key counts as one name. -/
def setKey (root : Value) (key : String) (value : Value) : Value :=
  setAt value ((keySteps? key).getD [.name (lowerCase key)]) (some root)

end Value

end PhasedTests.Config
