import PhasedTests.Files.Table

/-!
# Where files are kept

A command reads and writes files without knowing whether they are in a table or on a disk.
-/

namespace PhasedTests

/-- A place that keeps files. Writing does not make directories. -/
class FileStore (m : Type → Type) where
  read (path : String) : m (Except FileFault String)
  write (path text : String) : m (Except FileFault Unit)

/-- The table of a working directory keeps files. -/
instance : FileStore (StateM FileTable) where
  read path := return (← get).read path
  write path text := do
    match (← get).write path text with
    | .ok table =>
      set table
      return .ok ()
    | .error fault => return .error fault

end PhasedTests
