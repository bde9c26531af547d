import PhasedTests.Error
import PhasedTests.Files.Path

/-!
# Tables of files

Files and directories below the root, a working directory among them, and the operations that an
expansion needs. A relative path is seen from the working directory. Every step of a path starts
from a directory that exists; whether the last name exists is up to the operation. The parent of the
root is the root.
-/

namespace PhasedTests

/-- What a location holds. -/
inductive Entry where
  | file (text : String)
  | directory
  deriving DecidableEq, Repr

/-- The names that lead from the root to an entry. -/
abbrev Location := List (List Char)

/-- The entries below the root. -/
structure FileTable where
  /-- The working directory, from which relative paths are seen. -/
  directory : Location
  entries : List (Location × Entry)

namespace FileTable

/-- The working directory of a table that is made here. -/
def home : Location :=
  [['h', 'o', 'm', 'e']]

/-- Nothing but a working directory and the directories above it. -/
def empty : FileTable :=
  ⟨home, []⟩

/-- What a location holds; the working directory and the directories above it are always there. -/
def entry? (table : FileTable) (location : Location) : Option Entry :=
  if location.isPrefixOf table.directory then some .directory else table.entries.lookup location

/-- The table in which `location` holds `entry`. -/
def put (table : FileTable) (location : Location) (entry : Entry) : FileTable :=
  { table with
    entries := (location, entry) :: table.entries.filter fun other => other.1 != location }

/-- The location that segments lead to from `current`. -/
def walk (table : FileTable) (current : Location) : List (List Char) → Except FileFault Location
  | [] => .ok current
  | segment :: rest =>
    match table.entry? current with
    | none => .error .notFound
    | some (.file _) => .error .notADirectory
    | some .directory =>
      if Path.isIdle segment then table.walk current rest
      else if segment = ['.', '.'] then table.walk current.dropLast rest
      else table.walk (current ++ [segment]) rest

/-- The location that a path leads to, from the root or from the working directory. -/
def locate (table : FileTable) (path : String) : Except FileFault Location :=
  if path.isEmpty then .error .notFound
  else
    let start := if Path.isAbsolute path.toList then [] else table.directory
    table.walk start (Path.segments path.toList)

/-- The text of a file. -/
def read (table : FileTable) (path : String) : Except FileFault String := do
  let location ← table.locate path
  match table.entry? location with
  | some (.file text) => return text
  | some .directory => .error .isADirectory
  | none => .error .notFound

/-- Writes a file, in place of the one that is there. Its directory must exist. -/
def write (table : FileTable) (path text : String) : Except FileFault FileTable := do
  let location ← table.locate path
  match table.entry? location with
  | some .directory => .error .isADirectory
  | _ => return table.put location (.file text)

/-- The path of components, for the operations of a table. -/
def pathOf (components : List Path.Component) : String :=
  if components = [.root] then "/"
  else String.ofList (Path.ofSegments (components.map fun component =>
    match component with
    | .root => []
    | .current => ['.']
    | .parent => ['.', '.']
    | .name chars => chars))

/-- Makes one directory inside an existing one. -/
def makeDirectory (table : FileTable) (path : String) : Except FileFault FileTable := do
  let location ← table.locate path
  match table.entry? location with
  | some _ => .error .alreadyExists
  | none => return table.put location .directory

/-- Whether a path leads to a directory. -/
def isDirectory (table : FileTable) (path : String) : Bool :=
  match table.locate path with
  | .ok location => table.entry? location == some .directory
  | .error _ => false

/-- Makes the directory of a path given by its components, the last one first, and all that are
missing above it. What was made before a failure stays. -/
def makeDirectoriesTo (table : FileTable) :
    List Path.Component → FileTable × Except FileFault Unit
  | [] => (table, .ok ())
  | last :: outer =>
    let path := pathOf (last :: outer).reverse
    match table.makeDirectory path with
    | .ok made => (made, .ok ())
    | .error .notFound =>
      match table.makeDirectoriesTo outer with
      | (above, .error fault) => (above, .error fault)
      | (above, .ok ()) =>
        match above.makeDirectory path with
        | .ok made => (made, .ok ())
        | .error fault => if above.isDirectory path then (above, .ok ()) else (above, .error fault)
    | .error fault => if table.isDirectory path then (table, .ok ()) else (table, .error fault)

/-- Makes the directory that a file of this path lies in, and all that are missing above it. -/
def makeParents (table : FileTable) (path : String) : FileTable × Except FileFault Unit :=
  table.makeDirectoriesTo ((Path.components path.toList).reverse.drop 1)

/-- Writes a file and makes the directories above it that are missing. -/
def writeDeep (table : FileTable) (path text : String) : FileTable × Except FileFault Unit :=
  match table.makeParents path with
  | (made, .error fault) => (made, .error fault)
  | (made, .ok ()) =>
    match made.write path text with
    | .ok written => (written, .ok ())
    | .error fault => (made, .error fault)

/-- The table that holds these files. -/
def ofFiles (files : List (String × String)) : FileTable :=
  files.foldl (fun table file => (table.writeDeep file.1 file.2).1) empty

end FileTable

end PhasedTests
