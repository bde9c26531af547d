import PhasedTests.Proofs.Hook.Artifact
import PhasedTests.Session

/-!
# The registry over whole sessions

What a step does to the registry is said once: it registers the map of an expansion that succeeds,
and nothing else. So after any number of steps, whoever takes them, a path has the map that was
registered for it last. A step that fails at a text leaves the whole world as it was.
-/

namespace PhasedTests

/-- The source map that a run of the hook registers, if the text is marked and can be expanded. -/
def HookOptions.registered? (options : HookOptions) (source text : String) : Option SourceMap :=
  if containsText options.marker.toList text.toList then
    (options.pipeline.transformSource source (options.artifactPath source) text).toOption.map
      Mapped.map
  else none

/-- The source map that a step registers, if it registers one. -/
def Session.registered? (session : Session) (files : FileTable) : Step → Option SourceMap
  | .transform _ | .transformTree _ | .write _ _ => none
  | .transformSource source transformed text =>
    (session.pipeline.transformSource source transformed text).toOption.map Mapped.map
  | .transformFile source transformed =>
    (files.read source).toOption.bind fun text =>
      (session.pipeline.transformSource source transformed text).toOption.map Mapped.map
  | .hook source text => session.options.registered? source text
  | .compile source => (files.read source).toOption.bind (session.options.registered? source)
  | .register source transformed expanded emitted =>
    some (SourceMap.build source transformed expanded emitted)

/-- The registry with one more map, or as it is. -/
def Registry.registerAny (registry : Registry) : Option SourceMap → Registry
  | some map => registry.register map
  | none => registry

namespace World

/-- The world after steps, each of which comes with the session that takes it. -/
def after (world : World) (calls : List (Session × Step)) : World :=
  calls.foldl (fun world call => (call.1.run world call.2).2) world

/-- The source maps that the steps register on their way, the first one first. -/
def registered (world : World) : List (Session × Step) → List SourceMap
  | [] => []
  | (session, step) :: later =>
    (session.registered? world.files step).toList ++ (session.run world step).2.registered later

end World

/-! ## One step -/

namespace World

variable (world : World)

private theorem registry_of_transformSource (pipeline : Pipeline)
    (source transformed text : String) :
    (world.transformSource pipeline source transformed text).2.registry =
      world.registry.registerAny
        ((pipeline.transformSource source transformed text).toOption.map Mapped.map) := by
  unfold transformSource
  cases pipeline.transformSource source transformed text <;> rfl

private theorem registry_of_hook (options : HookOptions) (source text : String) :
    (world.runHook options source text).2.registry =
      world.registry.registerAny (options.registered? source text) := by
  have hrun := world.hookRun_runHook options source text
  generalize world.runHook options source text = result at hrun
  unfold HookOptions.registered?
  cases hrun with
  | untouched hmarker =>
    rw [hmarker]
    rfl
  | uncompilable hmarker hfailed =>
    rw [hmarker, hfailed]
    rfl
  | failed hmarker hfailed =>
    rw [hmarker, hfailed]
    rfl
  | expanded hmarker hdone =>
    rw [hmarker, hdone]
    rfl
  | unwritten hmarker hdone =>
    rw [hmarker, hdone]
    rfl

private theorem transformFile_of_read (pipeline : Pipeline) {source text : String}
    (hread : world.files.read source = .ok text) (transformed : String) :
    world.transformFile pipeline source transformed =
      world.transformSource pipeline source transformed text := by
  unfold transformFile
  rw [hread]

private theorem transformFile_of_unread (pipeline : Pipeline) {source : String} {fault : FileFault}
    (hread : world.files.read source = .error fault) (transformed : String) :
    world.transformFile pipeline source transformed = (.error (.file fault), world) := by
  unfold transformFile
  rw [hread]

private theorem compileSource_of_unread (options : HookOptions) {source : String}
    {fault : FileFault}
    (hread : world.files.read source = .error fault) :
    world.compileSource options source = (.error (.file fault), world) := by
  unfold compileSource
  rw [hread]

/-- Compiling a file that can be read is running the hook on its text. -/
theorem compileSource_of_read (options : HookOptions) {source text : String}
    (hread : world.files.read source = .ok text) :
    (world.compileSource options source).2 = (world.runHook options source text).2 ∧
      ∀ e, (world.compileSource options source).1 = .error e ↔
        (world.runHook options source text).1 = .error e := by
  unfold compileSource
  rw [hread]
  dsimp only
  cases world.runHook options source text with
  | mk result last =>
    cases result with
    | error e => exact ⟨rfl, by simp⟩
    | ok outcome => cases outcome <;> exact ⟨rfl, by simp⟩

private theorem world_of_transformSource_error {pipeline : Pipeline}
    {source transformed text : String}
    {e : TransformError}
    (hfailed : (world.transformSource pipeline source transformed text).1 = .error e) :
    (world.transformSource pipeline source transformed text).2 = world := by
  unfold transformSource at hfailed ⊢
  split at hfailed
  · cases hfailed
  · rfl

private theorem world_of_runHook_error {options : HookOptions} {source text : String}
    {e : TransformError}
    (hfailed : (world.runHook options source text).1 = .error e)
    (hfile : ∀ fault, e ≠ .file fault) : (world.runHook options source text).2 = world := by
  refine world_of_runHook (fun _ _ => ?_) fun fault => ?_
  · rw [hfailed]
    exact nofun
  · rw [hfailed]
    exact fun hsame => hfile fault (Except.error.inj hsame)

private theorem world_of_runHook_uncompilable {options : HookOptions} {source text : String}
    {cause : ReadError}
    (hdone : (world.runHook options source text).1 = .ok (.uncompilable cause)) :
    (world.runHook options source text).2 = world := by
  refine world_of_runHook (fun _ _ => ?_) fun _ => ?_ <;>
  · rw [hdone]
    exact nofun

end World

namespace Session

variable (session : Session) (world : World)

private theorem run_transformSource (source transformed text : String) :
    session.run world (.transformSource source transformed text) =
      ((world.transformSource session.pipeline source transformed text).1.map .text,
        (world.transformSource session.pipeline source transformed text).2) :=
  rfl

private theorem run_transformFile (source transformed : String) :
    session.run world (.transformFile source transformed) =
      ((world.transformFile session.pipeline source transformed).1.map .text,
        (world.transformFile session.pipeline source transformed).2) :=
  rfl

private theorem run_hook (source text : String) :
    session.run world (.hook source text) =
      ((world.runHook session.options source text).1.map .outcome,
        (world.runHook session.options source text).2) :=
  rfl

private theorem run_compile (source : String) :
    session.run world (.compile source) =
      ((world.compileSource session.options source).1.map .text,
        (world.compileSource session.options source).2) :=
  rfl

/-- A step does nothing to the registry but to register its map. -/
theorem registry_of_run (step : Step) :
    (session.run world step).2.registry =
      world.registry.registerAny (session.registered? world.files step) := by
  cases step with
  | transform text => rfl
  | transformTree t => rfl
  | transformSource source transformed text =>
    exact world.registry_of_transformSource session.pipeline source transformed text
  | transformFile source transformed =>
    rw [run_transformFile, registered?]
    cases hread : world.files.read source with
    | error fault =>
      rw [world.transformFile_of_unread session.pipeline hread]
      rfl
    | ok text =>
      rw [world.transformFile_of_read session.pipeline hread]
      exact world.registry_of_transformSource session.pipeline source transformed text
  | hook source text => exact world.registry_of_hook session.options source text
  | compile source =>
    rw [run_compile, registered?]
    cases hread : world.files.read source with
    | error fault =>
      rw [world.compileSource_of_unread session.options hread]
      rfl
    | ok text =>
      rw [(world.compileSource_of_read session.options hread).1]
      exact world.registry_of_hook session.options source text
  | write path text =>
    unfold run
    dsimp only
    cases world.files.writeDeep path text with
    | mk files written => cases written <;> rfl
  | register source transformed expanded emitted => rfl

/-- A step that fails, but not at a file, leaves the world as it was. -/
theorem world_of_run_error {step : Step} {e : TransformError}
    (hfailed : (session.run world step).1 = .error e) (hfile : ∀ fault, e ≠ .file fault) :
    (session.run world step).2 = world := by
  cases step with
  | transform text => rfl
  | transformTree t => rfl
  | transformSource source transformed text =>
    rw [run_transformSource] at hfailed ⊢
    exact world.world_of_transformSource_error (error_map_iff.mp hfailed)
  | transformFile source transformed =>
    rw [run_transformFile] at hfailed ⊢
    cases hread : world.files.read source with
    | error fault => rw [world.transformFile_of_unread session.pipeline hread]
    | ok text =>
      rw [world.transformFile_of_read session.pipeline hread] at hfailed ⊢
      exact world.world_of_transformSource_error (error_map_iff.mp hfailed)
  | hook source text =>
    rw [run_hook] at hfailed ⊢
    exact world.world_of_runHook_error (error_map_iff.mp hfailed) hfile
  | compile source =>
    rw [run_compile] at hfailed ⊢
    cases hread : world.files.read source with
    | error fault => rw [world.compileSource_of_unread session.options hread]
    | ok text =>
      obtain ⟨hlast, hreply⟩ := world.compileSource_of_read session.options hread
      rw [hlast]
      exact world.world_of_runHook_error ((hreply e).mp (error_map_iff.mp hfailed)) hfile
  | write path text =>
    unfold run at hfailed
    dsimp only at hfailed
    split at hfailed
    · cases hfailed
    · exact absurd (Except.error.inj hfailed).symm (hfile _)
  | register source transformed expanded emitted => cases hfailed

end Session

/-! ## Many steps -/

private theorem Registry.find?_registerAny (registry : Registry) (map : Option SourceMap)
    (path : String) :
    (registry.registerAny map).find? path =
      (map.toList.find? fun map => map.transformed == path).or (registry.find? path) := by
  cases map with
  | none => rfl
  | some map =>
    unfold registerAny
    rw [find?_register, Option.toList_some, List.find?_singleton]
    by_cases hpath : map.transformed = path
    · simp [hpath]
    · simp [hpath]

/-- After any steps a path has the map that was registered for it last, or the one it had before. -/
theorem World.find?_after (world : World) (calls : List (Session × Step)) (path : String) :
    (world.after calls).registry.find? path =
      ((world.registered calls).reverse.find? fun map => map.transformed == path).or
        (world.registry.find? path) := by
  induction calls generalizing world with
  | nil => rfl
  | cons call later ih =>
    obtain ⟨session, step⟩ := call
    have hlast : world.after ((session, step) :: later) =
        (session.run world step).2.after later := rfl
    have hone : (session.registered? world.files step).toList.reverse =
        (session.registered? world.files step).toList := by
      cases session.registered? world.files step <;> rfl
    rw [hlast, ih, session.registry_of_run, Registry.find?_registerAny, registered,
      List.reverse_append, List.find?_append, hone, Option.or_assoc]

/-- Whether every stored map is found under its own path. -/
def Registry.Keyed (registry : Registry) : Prop :=
  ∀ map ∈ registry.maps, registry.find? map.transformed = some map

private theorem Registry.Keyed.registerAny {registry : Registry} (hkeyed : registry.Keyed)
    (added : Option SourceMap) : (registry.registerAny added).Keyed := by
  cases added with
  | none => exact hkeyed
  | some added =>
    intro map hmem
    change map ∈ (registry.register added).maps at hmem
    change (registry.register added).find? map.transformed = some map
    rw [find?_register]
    rcases List.mem_cons.mp hmem with rfl | hmem
    · exact if_pos rfl
    · obtain ⟨hmem, hpath⟩ := List.mem_filter.mp hmem
      rw [if_neg (Ne.symm (bne_iff_ne.mp hpath)), hkeyed map hmem]

private theorem World.keyed_after {world : World} (hkeyed : world.registry.Keyed)
    (calls : List (Session × Step)) : (world.after calls).registry.Keyed := by
  induction calls generalizing world with
  | nil => exact hkeyed
  | cons call later ih =>
    have hnext : (call.1.run world call.2).2.registry.Keyed := by
      rw [Session.registry_of_run]
      exact hkeyed.registerAny _
    exact ih hnext

/-- The registry of a session without source maps at its start, whoever takes its steps. Each path
has the map that was registered for it last, or none, and each map is stored under its path and maps
exactly the lines from the first on. Steps without files, and steps whose text cannot be expanded,
leave the registry as it was. An artifact that the hook answers with holds the text of the answer,
and the map that is then registered for it counts the lines of this text. -/
theorem World.registry_of_after (files : FileTable) (calls : List (Session × Step)) :
    (∀ path, ((World.mk .empty files).after calls).registry.find? path =
      ((World.mk .empty files).registered calls).reverse.find? fun map => map.transformed == path) ∧
    (∀ map ∈ ((World.mk .empty files).after calls).registry.maps,
      ((World.mk .empty files).after calls).registry.find? map.transformed = some map ∧
        map.entries.map Prod.fst = List.range' 1 map.lineCount) ∧
    ∀ earlier session step, earlier ++ [(session, step)] <+: calls →
      let before := (World.mk .empty files).after earlier
      let next := session.run before step
      (((∃ text, step = .transform text) ∨ (∃ t, step = .transformTree t) ∨
          (∃ e, next.1 = .error e ∧ ∀ fault, e ≠ .file fault) ∨
          ∃ source text cause, step = .hook source text ∧
            next.1 = .ok (.outcome (.uncompilable cause))) →
        next.2.registry = before.registry) ∧
      ∀ source text expanded artifact, step = .hook source text →
        next.1 = .ok (.outcome (.expanded expanded artifact)) →
        artifact = session.options.artifactPath source ∧
          next.2.files.read artifact = .ok expanded ∧
          ∃ map, next.2.registry.find? artifact = some map ∧
            map.lineCount = expanded.toList.count '\n' ∧
            expanded.toList.getLast? = some '\n' := by
  refine ⟨fun path => ?_, fun map hmem => ⟨?_, SourceMap.keys_entries map⟩, ?_⟩
  · exact (World.find?_after _ calls path).trans (Option.or_none ..)
  · have hstart : (World.mk .empty files).registry.Keyed := nofun
    exact World.keyed_after hstart calls map hmem
  · intro earlier session step _
    dsimp only
    constructor
    · rintro (⟨text, rfl⟩ | ⟨t, rfl⟩ | ⟨e, hfailed, hfile⟩ | ⟨source, text, cause, rfl, hdone⟩)
      · rfl
      · rfl
      · rw [session.world_of_run_error _ hfailed hfile]
      · rw [Session.run_hook] at hdone ⊢
        obtain ⟨outcome, houtcome, hsame⟩ := ok_of_map hdone
        rw [Reply.outcome.inj hsame] at houtcome
        rw [World.world_of_runHook_uncompilable _ houtcome]
    · rintro source text expanded artifact rfl hdone
      rw [Session.run_hook] at hdone ⊢
      obtain ⟨outcome, houtcome, hsame⟩ := ok_of_map hdone
      rw [Reply.outcome.inj hsame] at houtcome
      exact World.artifact_of_runHook session.options source houtcome

/-- A session of the hook in a project that is given from the root. -/
def rootedSession : Session :=
  ⟨rootedHook.pipeline, rootedHook⟩

/-- The files of this project. -/
def rootedFiles : FileTable :=
  .ofFiles [("/work/app/a.sexp", markedText)]

/-- The file is read and its text expanded for a file outside the project. -/
private theorem Session.run_rootedSession_transformFile : ∃ mapped,
    rootedHook.pipeline.transformSource "/work/app/a.sexp" "/out.sexp" markedText = .ok mapped ∧
    rootedSession.run ⟨.empty, rootedFiles⟩ (.transformFile "/work/app/a.sexp" "/out.sexp") =
      (.ok (.text mapped.text), ⟨Registry.empty.register mapped.map, rootedFiles⟩) := by
  have hread : rootedFiles.read "/work/app/a.sexp" = .ok markedText := rfl
  obtain ⟨mapped, hdone, -⟩ := exists_transformSource_markedText "/work/app/a.sexp" "/out.sexp"
  have hpipeline : rootedSession.pipeline = .standard .lenient 2 := rfl
  refine ⟨mapped, hdone, ?_⟩
  rw [run_transformFile, World.transformFile_of_read _ _ hread, World.transformSource, hpipeline,
    hdone]
  rfl

/-- The hook makes the scratch directory and writes the artifact. -/
private theorem Session.run_rootedSession (registry : Registry) : ∃ mapped files,
    rootedHook.pipeline.transformSource "/work/app/a.sexp" "/work/app/tmp/a.sexp" markedText =
      .ok mapped ∧
    rootedSession.run ⟨registry, rootedFiles⟩ (.hook "/work/app/a.sexp" markedText) =
      (.ok (.outcome (.expanded markedText "/work/app/tmp/a.sexp")),
        ⟨registry.register mapped.map, files⟩) := by
  have hartifact : rootedHook.artifactPath "/work/app/a.sexp" = "/work/app/tmp/a.sexp" := by
    decide
  obtain ⟨mapped, hdone, htext⟩ := exists_transformSource_markedText "/work/app/a.sexp"
    (rootedHook.artifactPath "/work/app/a.sexp")
  obtain ⟨files, hwrite⟩ : ∃ files, rootedFiles.writeDeep
      (rootedHook.artifactPath "/work/app/a.sexp") mapped.text = (files, .ok ()) := by
    rw [hartifact, htext]
    exact ⟨_, rfl⟩
  refine ⟨mapped, files, hartifact ▸ hdone, ?_⟩
  have hrun : World.runHook ⟨registry, rootedFiles⟩ rootedHook "/work/app/a.sexp" markedText =
      (.ok (.expanded markedText "/work/app/tmp/a.sexp"),
        ⟨registry.register mapped.map, files⟩) := by
    rw [World.runHook_of_transformSource _ rootedHook _ _ (by decide) hdone hwrite, hartifact,
      htext]
    rfl
  rw [run_hook]
  exact congrArg (fun result => (result.1.map Reply.outcome, result.2)) hrun

/-- A file that is given from the root is expanded for another one, then the hook runs on it, and
then a text is no document. The registry has the map of each expansion, and the artifact of the hook
holds the text that it answers with. -/
theorem World.registry_of_after_rootedSession : ∃ first second,
    rootedHook.pipeline.transformSource "/work/app/a.sexp" "/out.sexp" markedText = .ok first ∧
    rootedHook.pipeline.transformSource "/work/app/a.sexp" "/work/app/tmp/a.sexp" markedText =
      .ok second ∧
    let calls := [(rootedSession, .transformFile "/work/app/a.sexp" "/out.sexp"),
      (rootedSession, .hook "/work/app/a.sexp" markedText), (rootedSession, .transform "(")]
    let last := (World.mk .empty rootedFiles).after calls
    last.registry.find? "/out.sexp" = some first.map ∧
    last.registry.find? "/work/app/tmp/a.sexp" = some second.map ∧
    second.map.entries.map Prod.fst = List.range' 1 second.map.lineCount ∧
    last.files.read "/work/app/tmp/a.sexp" = .ok markedText := by
  obtain ⟨first, hfirst, hopened⟩ := Session.run_rootedSession_transformFile
  obtain ⟨second, files, hsecond, hrun⟩ :=
    Session.run_rootedSession (Registry.empty.register first.map)
  refine ⟨first, second, hfirst, hsecond, ?_⟩
  intro calls last
  obtain ⟨-, hmaps, hstep⟩ := World.registry_of_after rootedFiles calls
  obtain ⟨-, hhook⟩ := hstep (calls.take 1) rootedSession (.hook "/work/app/a.sexp" markedText)
    ⟨_, rfl⟩
  obtain ⟨hsame, -⟩ := hstep (calls.take 2) rootedSession (.transform "(") (List.prefix_refl _)
  have hopen : (World.mk .empty rootedFiles).after (calls.take 1) =
      ⟨Registry.empty.register first.map, rootedFiles⟩ := congrArg Prod.snd hopened
  have hhooked : (World.mk .empty rootedFiles).after (calls.take 2) =
      ⟨(Registry.empty.register first.map).register second.map, files⟩ :=
    (congrArg (fun world => (rootedSession.run world (.hook "/work/app/a.sexp" markedText)).2)
      hopen).trans (congrArg Prod.snd hrun)
  have hregistry : last.registry = (Registry.empty.register first.map).register second.map :=
    (hsame (Or.inl ⟨"(", rfl⟩)).trans (congrArg World.registry hhooked)
  rw [hopen] at hhook
  obtain ⟨-, hread, -⟩ := hhook "/work/app/a.sexp" markedText _ _ rfl (congrArg Prod.fst hrun)
  obtain ⟨hfind, hentries⟩ := hmaps second.map (hregistry ▸ List.mem_cons_self)
  rw [(Pipeline.paths_of_transformSource hsecond).2] at hfind
  have hother : last.registry.find? "/out.sexp" = some first.map := by
    rw [hregistry, Registry.find?_register, (Pipeline.paths_of_transformSource hsecond).2,
      if_neg (by decide), Registry.find?_register,
      if_pos (Pipeline.paths_of_transformSource hfirst).2]
  have hfiles : last.files = files := congrArg World.files hhooked
  rw [hrun, ← hfiles] at hread
  exact ⟨hother, hfind, hentries, hread⟩

end PhasedTests
