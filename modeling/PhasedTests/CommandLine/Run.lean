import PhasedTests.CommandLine.Arguments
import PhasedTests.Config.Settings
import PhasedTests.Hook
import PhasedTests.SourceMap.Json
import PhasedTests.Text.Blank
import PhasedTests.TruthTable

/-!
# Running a command

What a command prints and with which code it ends. The settings come from the project's own
configuration file, from the file that the arguments name, and from the arguments themselves.
-/

namespace PhasedTests

namespace Settings

/-- How expansions are to be done. -/
def pipeline (settings : Settings) : Pipeline :=
  .standard (if settings.strict then .strict else .lenient) settings.indent

/-- Which files are expanded, and where the results go. -/
def hookOptions (settings : Settings) : HookOptions :=
  ⟨settings.marker, settings.projectRoot, settings.scratchDir, settings.strict, settings.indent⟩

end Settings

namespace CommandLine

/-- What a run leaves on its two streams, and the code it ends with. -/
structure Outcome where
  code : Nat
  stdout : String
  stderr : String
  deriving DecidableEq, Repr

namespace Outcome

/-- A run that prints a text and succeeds. -/
def success (text : String) : Outcome :=
  ⟨0, text, ""⟩

/-- A run that fails with a message. -/
def failure (message : String) : Outcome :=
  ⟨1, "", message ++ "\n"⟩

/-- A run after another one, which fails if one of them does. -/
def followedBy (first second : Outcome) : Outcome :=
  ⟨max first.code second.code, first.stdout ++ second.stdout, first.stderr ++ second.stderr⟩

end Outcome

/-- The name of the program and its version. -/
def versionText : String :=
  "phasespec 0.1.0\n"

/-- How the program is called. -/
def usageText : String :=
  "Usage: phasespec [OPTIONS] <COMMAND>\n\n" ++
  "Commands:\n" ++
  "  transform <path> [--output <file>]     Expand a file and print the result\n" ++
  "  source-map <path>                      Expand a file and print its line mapping as JSON\n" ++
  "  check <paths>...                       Check that files expand cleanly\n" ++
  "  truth-table --column <name=v1,v2>...   Print every combination of column values\n\n" ++
  "Options:\n" ++
  "  -c, --config <file>   Configuration file layered over the defaults\n" ++
  "  -v, --verbose         Log every pipeline stage\n" ++
  "      --strict          Reject test methods that are not phase-structured\n" ++
  "  -h, --help            Print help\n" ++
  "  -V, --version         Print version\n"

/-- A column of a truth table: its name, and behind the first equals sign its values between
commas, without blanks around them. -/
def readColumn? (column : String) : Option (String × List String) :=
  let name := column.toList.takeWhile (· ≠ '=')
  match column.toList.drop name.length with
  | [] => none
  | _ :: values =>
    some (String.ofList name,
      (values.splitOn ',').map fun value => String.ofList (Text.trimBlank value))

/-- Reads the columns of a truth table, up to the first one that is none. -/
def readColumns : List String → Except String (List (String × List String))
  | [] => .ok []
  | column :: rest =>
    match readColumn? column with
    | none => .error column
    | some found => (readColumns rest).map (found :: ·)

/-- Prints the truth table of columns. Of two columns with one name the later one says what both
hold. -/
def runTruthTable (columns : List String) : Outcome :=
  match readColumns columns with
  | .error column => .failure ("Column '" ++ column ++ "' must look like name=v1,v2")
  | .ok found =>
    let values (name : String) := (found.reverse.lookup name).getD []
    .success ((TruthTable.ofValues (found.map (·.1)) values).text ++ "\n")

/-- How a message calls the failed reading of a file. -/
def readFailure (path : String) (fault : FileFault) : Outcome :=
  .failure ("Error reading " ++ path ++ ": " ++ fault.message)

/-- How a message calls the failed expansion of a file. -/
def expansionFailure (path : String) (e : TransformError) : Outcome :=
  .failure (path ++ ": " ++ e.message)

variable {m : Type → Type} [Monad m] [FileStore m]

/-- Expands a file, and prints the result or writes it to another file. -/
def runTransform (settings : Settings) (path : String) (output : Option String) : m Outcome := do
  match ← FileStore.read path with
  | .error fault => return readFailure path fault
  | .ok source =>
    match settings.pipeline.transform source, output with
    | .error e, _ => return expansionFailure path e
    | .ok text, none => return .success text
    | .ok text, some target =>
      match ← FileStore.write target text with
      | .ok () => return .success ""
      | .error fault => return .failure ("Error writing " ++ target ++ ": " ++ fault.message)

/-- Expands a file and prints the map between its lines and those of its artifact. -/
def runSourceMap (settings : Settings) (path : String) : m Outcome := do
  match ← FileStore.read path with
  | .error fault => return expansionFailure path (.file fault)
  | .ok source =>
    let artifact := settings.hookOptions.artifactPath path
    match settings.pipeline.transformSource path artifact source with
    | .error e => return expansionFailure path e
    | .ok mapped => return .success (mapped.map.json ++ "\n")

/-- Expands files without keeping the results, and says which expansions fail. A file that cannot be
read ends the run. -/
def runCheck (pipeline : Pipeline) : List String → m Outcome
  | [] => return .success ""
  | path :: rest => do
    match ← FileStore.read path with
    | .error fault => return readFailure path fault
    | .ok source =>
      let here : Outcome := match pipeline.transform source with
        | .ok _ => .success ("ok: " ++ path ++ "\n")
        | .error e => expansionFailure path e
      return here.followedBy (← runCheck pipeline rest)

/-- Runs a command. -/
def runCommand (settings : Settings) : Command → m Outcome
  | .transform path output => runTransform settings path output
  | .sourceMap path => runSourceMap settings path
  | .check paths => runCheck settings.pipeline paths
  | .truthTable columns => return runTruthTable columns

/-- Where the settings of a request come from. -/
def Request.loader (request : Request) : Except ConfigError Loader :=
  let project := Loader.standard.withProject "."
  let named := match request.config with
    | some path => project.withFile path true
    | none => project
  if request.strict then named.withStrict true else .ok named

/-- Runs a request. Without a command there is nothing to run once the settings are there. -/
def runRequest (request : Request) : m Outcome := do
  let settings ← match request.loader with
    | .ok loader => loader.load
    | .error e => pure (.error e)
  match settings, request.command with
  | .error e, _ => return .failure ("Configuration error: " ++ e.message)
  | .ok _, none => return ⟨101, "", UsageFault.noCommand.message ++ "\n"⟩
  | .ok settings, some command => runCommand settings command

/-- Runs the program. -/
def run (arguments : List String) : m Outcome :=
  match readArguments arguments with
  | .ok request => runRequest request
  | .error .version => return .success versionText
  | .error .help => return .success usageText
  | .error (.fault fault) => return ⟨2, "", "error: " ++ fault.message ++ "\n\n" ++ usageText⟩

end CommandLine

end PhasedTests
