import PhasedTests.CommandLine.Run

/-!
# The program

The command line over the files of the disk.
-/

namespace PhasedTests

/-- How the failure of a file operation is called. -/
def FileFault.ofError : IO.Error → FileFault
  | .noFileOrDirectory .. => .notFound
  | e => .other (toString e)

/-- The disk keeps files. -/
instance : FileStore IO where
  read path := do
    match ← (IO.FS.readFile path).toBaseIO with
    | .ok text => return .ok text
    | .error e => return .error (.ofError e)
  write path text := do
    match ← (IO.FS.writeFile path text).toBaseIO with
    | .ok () => return .ok ()
    | .error e => return .error (.ofError e)

end PhasedTests

/-- Runs the program and prints what it leaves on its streams. -/
def main (arguments : List String) : IO UInt32 := do
  let outcome : PhasedTests.CommandLine.Outcome ← PhasedTests.CommandLine.run arguments
  (← IO.getStdout).putStr outcome.stdout
  (← IO.getStderr).putStr outcome.stderr
  return outcome.code.toUInt32
