import PhasedTests.Config.Key
import PhasedTests.Files.Store
import PhasedTests.Toml.Document

/-!
# Settings

What the tools can be told: defaults, over them the entries of configuration files in the order of
the files, and over these single settings, whatever their order among the files. All of it is one
table of values until it is complete; then every setting is read as what it has to be.
-/

namespace PhasedTests

open Config (KeyStep Value)

/-- What the tools are told. -/
structure Settings where
  /-- Files that do not contain this text are left alone. -/
  marker : String
  scratchDir : String
  projectRoot : String
  /-- Whether tests without phases are refused. -/
  strict : Bool
  indent : Nat
  /-- How much is logged. -/
  level : String
  deriving DecidableEq, Repr

/-- Why there are no settings. -/
inductive ConfigError where
  /-- The file at this path is no TOML. -/
  | invalidFile (path : String) (cause : Toml.Error)
  | missingFile (path : String)
  | invalidKey (key : String)
  /-- A setting has a value that cannot be read as what it has to be. -/
  | wrongType (part name : String)
  /-- A part of the settings is not there, or lacks a setting. -/
  | incomplete (part name : String)

namespace ConfigError

/-- The wording of the error. -/
def message : ConfigError → String
  | invalidFile path cause => cause.message ++ " in " ++ path
  | missingFile path => "configuration file \"" ++ path ++ "\" not found"
  | invalidKey key => "invalid key \"" ++ key ++ "\""
  | wrongType part name => "invalid type for key `" ++ part ++ "." ++ name ++ "`"
  | incomplete part name => "missing field `" ++ name ++ "` in `" ++ part ++ "`"

end ConfigError

namespace Settings

/-- The settings of a tool that is told nothing. -/
def standard : Settings :=
  ⟨"transform!", "tmp/phasespec", ".", false, 2, "info"⟩

/-- The settings as one table of values. -/
def toValue (settings : Settings) : Value :=
  .table [
    ("hook", .table [("marker", .text settings.marker), ("scratch_dir", .text settings.scratchDir),
      ("project_root", .text settings.projectRoot)]),
    ("transform", .table [("strict", .bool settings.strict)]),
    ("output", .table [("indent", .int settings.indent)]),
    ("logging", .table [("level", .text settings.level)])]

/-- A part of the settings. -/
structure Part where
  name : String
  value : Value

/-- A part of a table of values. -/
def part (root : Value) (name : String) : Part :=
  ⟨name, (root.entries.lookup name).getD .nil⟩

namespace Part

/-- A setting of a part, under its name in a table or at its place in an array. -/
def setting? (part : Part) (place : Nat) (name : String) : Option Value :=
  match part.value with
  | .table entries => entries.lookup name
  | .array items => items[place]?
  | _ => none

/-- Reads a setting, if it is there. -/
def read? {α : Type} (part : Part) (place : Nat) (name : String) (reading : Value → Option α) :
    Except ConfigError (Option α) :=
  match part.setting? place name with
  | none => .ok none
  | some value =>
    match reading value with
    | some found => .ok (some found)
    | none => .error (.wrongType part.name name)

/-- A setting that has to be there. -/
def require {α : Type} (part : Part) (name : String) : Option α → Except ConfigError α
  | some found => .ok found
  | none => .error (.incomplete part.name name)

end Part

/-- Reads all settings from a table of values. In every part, a setting that cannot be read is
reported before one that is not there. -/
def ofValue (root : Value) : Except ConfigError Settings := do
  let hook := part root "hook"
  let marker ← hook.read? 0 "marker" Value.toText?
  let scratchDir ← hook.read? 1 "scratch_dir" Value.toText?
  let projectRoot ← hook.read? 2 "project_root" Value.toText?
  let marker ← hook.require "marker" marker
  let scratchDir ← hook.require "scratch_dir" scratchDir
  let projectRoot ← hook.require "project_root" projectRoot
  let transform := part root "transform"
  let strict ← transform.require "strict" (← transform.read? 0 "strict" Value.toBool?)
  let output := part root "output"
  let indent ← output.require "indent" (← output.read? 0 "indent" Value.toWord?)
  let logging := part root "logging"
  let level ← logging.require "level" (← logging.read? 0 "level" Value.toText?)
  return ⟨marker, scratchDir, projectRoot, strict, indent, level⟩

end Settings

/-- A configuration file that is laid over what is there. -/
structure ConfigFile where
  path : String
  required : Bool

/-- Where settings come from. -/
structure Loader where
  files : List ConfigFile
  /-- Single settings, the earliest first. -/
  overrides : List (List KeyStep × Value)

namespace Loader

/-- Nothing but the defaults. -/
def standard : Loader :=
  ⟨[], []⟩

/-- Adds a file. -/
def withFile (loader : Loader) (path : String) (required : Bool) : Loader :=
  { loader with files := loader.files ++ [⟨path, required⟩] }

/-- Adds the file that a project keeps in its directory, if it keeps one. -/
def withProject (loader : Loader) (directory : String) : Loader :=
  loader.withFile
    (String.ofList (Path.join directory.toList "phasespec.toml".toList)) false

/-- Adds a single setting. -/
def withSetting (loader : Loader) (key : String) (value : Value) : Except ConfigError Loader :=
  match Config.keySteps? key with
  | some steps => .ok { loader with overrides := loader.overrides ++ [(steps, value)] }
  | none => .error (.invalidKey key)

/-- Says whether tests without phases are refused. -/
def withStrict (loader : Loader) (strict : Bool) : Except ConfigError Loader :=
  loader.withSetting "transform.strict" (.bool strict)

/-- The settings of layers of entries with single settings over them. -/
def settings (layers : List (List (String × Value))) (overrides : List (List KeyStep × Value)) :
    Except ConfigError Settings :=
  let layered := layers.foldl (fun root entries =>
    entries.foldl (fun root entry => root.setKey entry.1 entry.2.lowerKeys) root)
    Settings.standard.toValue
  Settings.ofValue
    (overrides.foldl (fun root setting => Value.setAt setting.2 setting.1 (some root)) layered)

/-- The paths under which a configuration file is looked for: its own, and the one with `.toml`
behind its last name. -/
def candidates (path : String) : List String :=
  let trimmed := Path.trimPath path.toList
  match (Path.components trimmed).getLast? with
  | some (.name _) => [path, String.ofList (trimmed ++ ".toml".toList)]
  | _ => [path]

/-- A path without idle parts, as it is shown in messages. -/
def shownPath (path : String) : String :=
  FileTable.pathOf ((Path.components path.toList).filter (· ≠ .current))

variable {m : Type → Type} [Monad m] [FileStore m]

/-- The first of some paths that leads to a file, with its text. -/
def firstFile? : List String → m (Option (String × String))
  | [] => return none
  | path :: rest => do
    match ← FileStore.read path with
    | .ok text => return some (path, text)
    | .error _ => firstFile? rest

/-- The entries of a configuration file; one that need not be there has none without it. -/
def readFile (file : ConfigFile) : m (Except ConfigError (List (String × Value))) := do
  match ← firstFile? (candidates file.path) with
  | some (path, text) => return (Toml.parse text).mapError (.invalidFile (shownPath path))
  | none => return if file.required then .error (.missingFile file.path) else .ok []

/-- The entries of configuration files, up to the first one that fails. -/
def readFiles : List ConfigFile → m (Except ConfigError (List (List (String × Value))))
  | [] => return .ok []
  | file :: rest => do
    match ← readFile file with
    | .error e => return .error e
    | .ok entries => return (← readFiles rest).map (entries :: ·)

/-- Reads the files and the settings. -/
def load (loader : Loader) : m (Except ConfigError Settings) := do
  match ← readFiles loader.files with
  | .error e => return .error e
  | .ok layers => return settings layers loader.overrides

end Loader

end PhasedTests
