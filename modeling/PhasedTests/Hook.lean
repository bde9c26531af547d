import PhasedTests.Files.Table
import PhasedTests.Pipeline

/-!
# The compile hook

A host hands every source file to the hook before it compiles it. Files without the marker are
left alone. The others are expanded, and the expanded text is written to an artifact below a
scratch directory, so that backtraces point at a real file.
-/

namespace PhasedTests

/-- Which files are expanded, how, and where the results go. -/
structure HookOptions where
  /-- Files that do not contain this text are left alone. -/
  marker : String
  projectRoot : String
  /-- Seen from the project root unless absolute. -/
  scratchDir : String
  strict : Bool
  indent : Nat

/-- What the host should compile. -/
inductive HookOutcome where
  /-- The text it has. -/
  | untouched
  /-- This text, which the artifact holds. -/
  | expanded (text artifact : String)
  /-- The text it has, which is no document. -/
  | uncompilable (cause : ReadError)

/-- What an expansion leaves behind: the source maps and the files. -/
structure World where
  registry : Registry
  files : FileTable

/-- Whether `part` occurs in a text. -/
def containsText (part : List Char) : List Char → Bool
  | [] => part.isEmpty
  | c :: rest => part.isPrefixOf (c :: rest) || containsText part rest

namespace HookOptions

/-- The expansions of the hook. -/
def pipeline (options : HookOptions) : Pipeline :=
  .standard (if options.strict then .strict else .lenient) options.indent

/-- The path of a source inside the project, or its names when it lies outside. -/
def relativePath (options : HookOptions) (source : List Char) : List Char :=
  (Path.stripPrefix? source options.projectRoot.toList).getD (Path.namesOnly source)

/-- Where the expanded text of a source goes. -/
def artifactPath (options : HookOptions) (source : String) : String :=
  String.ofList (Path.join (Path.join options.projectRoot.toList options.scratchDir.toList)
    (options.relativePath source.toList))

end HookOptions

namespace World

/-- Expands the text of a file for another file and registers its source map. -/
def transformSource (world : World) (pipeline : Pipeline) (source transformed text : String) :
    Except TransformError String × World :=
  match pipeline.transformSource source transformed text with
  | .ok mapped => (.ok mapped.text, { world with registry := world.registry.register mapped.map })
  | .error e => (.error e, world)

/-- Reads a file and expands it for another file. -/
def transformFile (world : World) (pipeline : Pipeline) (source transformed : String) :
    Except TransformError String × World :=
  match world.files.read source with
  | .ok text => world.transformSource pipeline source transformed text
  | .error fault => (.error (.file fault), world)

/-- Runs the hook on the text of a source file. The source map is registered before the artifact is
written. -/
def runHook (world : World) (options : HookOptions) (source text : String) :
    Except TransformError HookOutcome × World :=
  if !containsText options.marker.toList text.toList then (.ok .untouched, world)
  else
    let artifact := options.artifactPath source
    match world.transformSource options.pipeline source artifact text with
    | (.error (.parse cause), world) => (.ok (.uncompilable cause), world)
    | (.error e, world) => (.error e, world)
    | (.ok expanded, world) =>
      match world.files.writeDeep artifact expanded with
      | (files, .ok ()) => (.ok (.expanded expanded artifact), { world with files })
      | (files, .error fault) => (.error (.file fault), { world with files })

/-- Reads a source file and answers with the text to compile. -/
def compileSource (world : World) (options : HookOptions) (source : String) :
    Except TransformError String × World :=
  match world.files.read source with
  | .error fault => (.error (.file fault), world)
  | .ok text =>
    match world.runHook options source text with
    | (.ok (.expanded expanded _), world) => (.ok expanded, world)
    | (.ok _, world) => (.ok text, world)
    | (.error e, world) => (.error e, world)

end World

end PhasedTests
