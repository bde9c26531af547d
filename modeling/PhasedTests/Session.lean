import PhasedTests.Hook

/-!
# Sessions

A sequence of expansions that share source maps and files. A step answers and leaves a world behind;
a step that fails does not end the session.
-/

namespace PhasedTests

/-- One step of a session. -/
inductive Step where
  | transform (text : String)
  | transformTree (t : Tree)
  | transformSource (source transformed text : String)
  | transformFile (source transformed : String)
  | hook (source text : String)
  | compile (source : String)
  | write (path text : String)
  | register (source transformed : String) (expanded emitted : Tree)

/-- What a step answers. -/
inductive Reply where
  | text (text : String)
  | tree (t : Tree)
  | outcome (outcome : HookOutcome)
  | map (map : SourceMap)
  | done

/-- How the texts of a session are expanded. -/
structure Session where
  pipeline : Pipeline
  options : HookOptions

namespace Session

/-- Runs one step. -/
def run (session : Session) (world : World) : Step → Except TransformError Reply × World
  | .transform text => ((session.pipeline.transform text).map .text, world)
  | .transformTree t => ((session.pipeline.transformTree t).map .tree, world)
  | .transformSource source transformed text =>
    let (result, world) := world.transformSource session.pipeline source transformed text
    (result.map .text, world)
  | .transformFile source transformed =>
    let (result, world) := world.transformFile session.pipeline source transformed
    (result.map .text, world)
  | .hook source text =>
    let (result, world) := world.runHook session.options source text
    (result.map .outcome, world)
  | .compile source =>
    let (result, world) := world.compileSource session.options source
    (result.map .text, world)
  | .write path text =>
    match world.files.writeDeep path text with
    | (files, .ok ()) => (.ok .done, { world with files })
    | (files, .error fault) => (.error (.file fault), { world with files })
  | .register source transformed expanded emitted =>
    let map := SourceMap.build source transformed expanded emitted
    (.ok (.map map), { world with registry := world.registry.register map })

end Session

end PhasedTests
