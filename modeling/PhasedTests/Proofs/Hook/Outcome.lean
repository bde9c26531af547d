import PhasedTests.Hook
import PhasedTests.Proofs.Expansion.EntryPoints

/-!
# What a run of the hook leaves behind

The hook leaves a file alone, finds that its text cannot be expanded, or expands it. Only when the
text is expanded does the world change: the source map is registered, and then the artifact is
written. So a run that ends without an artifact has changed nothing, unless it is the writing that
failed; then the map of the expansion is registered all the same.
-/

namespace PhasedTests

/-- The text of a file is expanded, or it cannot be read, or a test or an annotation in it is not
written as it should be. -/
theorem Pipeline.failsOnly_transformSource (pipeline : Pipeline)
    (source transformed text : String) :
    FailsOnly (fun e => (∃ cause, e = .parse cause) ∨ e.inTree = true)
      (pipeline.transformSource source transformed text) := by
  cases hdone : pipeline.expandText source text with
  | ok expanded =>
    rw [transformSource_of_expandText hdone]
    exact failsOnly_ok _
  | error e =>
    have hkind : (∃ cause, e = .parse cause) ∨ e.inTree = true := by
      rcases error_of_bind hdone with hread | ⟨t, -, hrun⟩
      · have hparse : FailsOnly (fun e => ∃ cause, e = .parse cause)
            ((readText source text).mapError TransformError.parse) :=
          failsOnly_mapError fun cause => ⟨cause, rfl⟩
        exact Or.inl (hparse e hread)
      · exact Or.inr (Pass.inTree_of_runAll _ _ t e hrun)
    unfold transformSource
    rw [hdone]
    exact failsOnly_error hkind

/-- The source map of an expansion names the file that was read and the one that is written. -/
theorem Pipeline.paths_of_transformSource {pipeline : Pipeline}
    {source transformed text : String} {mapped : Mapped}
    (hdone : pipeline.transformSource source transformed text = .ok mapped) :
    mapped.map.source = source ∧ mapped.map.transformed = transformed := by
  obtain ⟨expanded, -, hmap⟩ := ok_of_bind hdone
  obtain ⟨emitted, -, hpure⟩ := ok_of_bind hmap
  rw [← Except.ok.inj hpure]
  exact ⟨rfl, rfl⟩

/-! ## The registry -/

namespace Registry

variable (registry : Registry) (map : SourceMap)

/-- A path has the map that was registered for it last. -/
theorem find?_register (path : String) :
    (registry.register map).find? path =
      if map.transformed = path then some map else registry.find? path := by
  unfold find? register
  dsimp only
  by_cases hpath : map.transformed = path
  · rw [if_pos hpath, List.find?_cons_of_pos (by rw [hpath]; exact beq_self_eq_true path)]
  · have hother (other : SourceMap) : decide ((other.transformed != map.transformed) = true ∧
        (other.transformed == path) = true) = (other.transformed == path) := by
      by_cases hsame : other.transformed = path
      · simp [hsame, Ne.symm hpath]
      · simp [hsame]
    rw [if_neg hpath, List.find?_cons_of_neg (by simpa using hpath), List.find?_filter]
    exact congrArg (List.find? · registry.maps) (funext hother)

end Registry

/-! ## One run -/

/-- The ways in which a run of the hook ends, with the answer and the world that it leaves. -/
inductive HookRun (world : World) (options : HookOptions) (source text : String) :
    Except TransformError HookOutcome × World → Prop where
  | untouched (hmarker : containsText options.marker.toList text.toList = false) :
    HookRun world options source text (.ok .untouched, world)
  | uncompilable {cause : ReadError}
    (hmarker : containsText options.marker.toList text.toList = true)
    (hfailed : options.pipeline.transformSource source (options.artifactPath source) text =
      .error (.parse cause)) :
    HookRun world options source text (.ok (.uncompilable cause), world)
  | failed {e : TransformError}
    (hmarker : containsText options.marker.toList text.toList = true)
    (hfailed : options.pipeline.transformSource source (options.artifactPath source) text =
      .error e)
    (htree : e.inTree = true) :
    HookRun world options source text (.error e, world)
  | expanded {mapped : Mapped} {files : FileTable}
    (hmarker : containsText options.marker.toList text.toList = true)
    (hdone : options.pipeline.transformSource source (options.artifactPath source) text =
      .ok mapped)
    (hwrite : world.files.writeDeep (options.artifactPath source) mapped.text = (files, .ok ())) :
    HookRun world options source text
      (.ok (.expanded mapped.text (options.artifactPath source)),
        ⟨world.registry.register mapped.map, files⟩)
  | unwritten {mapped : Mapped} {files : FileTable} {fault : FileFault}
    (hmarker : containsText options.marker.toList text.toList = true)
    (hdone : options.pipeline.transformSource source (options.artifactPath source) text =
      .ok mapped)
    (hwrite : world.files.writeDeep (options.artifactPath source) mapped.text =
      (files, .error fault)) :
    HookRun world options source text
      (.error (.file fault), ⟨world.registry.register mapped.map, files⟩)

namespace World

variable (world : World) (options : HookOptions) (source text : String)

/-- A marked text that is expanded is registered, and then written. -/
theorem runHook_of_transformSource {mapped : Mapped} {files : FileTable}
    {written : Except FileFault Unit}
    (hmarker : containsText options.marker.toList text.toList = true)
    (hdone : options.pipeline.transformSource source (options.artifactPath source) text =
      .ok mapped)
    (hwrite : world.files.writeDeep (options.artifactPath source) mapped.text = (files, written)) :
    world.runHook options source text =
      ((written.mapError .file).map fun _ => .expanded mapped.text (options.artifactPath source),
        ⟨world.registry.register mapped.map, files⟩) := by
  unfold runHook transformSource
  rw [hmarker, Bool.not_true, if_neg Bool.false_ne_true]
  dsimp only
  rw [hdone]
  dsimp only
  rw [hwrite]
  cases written <;> rfl

/-- Running the hook has one of the outcomes of `HookRun`. -/
theorem hookRun_runHook :
    HookRun world options source text (world.runHook options source text) := by
  cases hmarker : containsText options.marker.toList text.toList with
  | false =>
    unfold runHook
    rw [hmarker]
    exact .untouched hmarker
  | true =>
    cases hdone : options.pipeline.transformSource source (options.artifactPath source) text with
    | error e =>
      unfold runHook transformSource
      rw [hmarker, Bool.not_true, if_neg Bool.false_ne_true]
      dsimp only
      rw [hdone]
      rcases options.pipeline.failsOnly_transformSource _ _ _ e hdone with ⟨cause, rfl⟩ | htree
      · exact .uncompilable hmarker hdone
      · cases e <;> first | exact .failed hmarker hdone htree | cases htree
    | ok mapped =>
      cases hwrite : world.files.writeDeep (options.artifactPath source) mapped.text with
      | mk files written =>
        rw [world.runHook_of_transformSource options source text hmarker hdone hwrite]
        cases written with
        | ok done => exact .expanded hmarker hdone hwrite
        | error fault => exact .unwritten hmarker hdone hwrite

/-- A run of the hook changes the world only when it expands the text, whether or not the artifact
can be written. -/
theorem world_of_runHook {world : World} {options : HookOptions} {source text : String}
    (hanswer : ∀ expanded artifact,
      (world.runHook options source text).1 ≠ .ok (.expanded expanded artifact))
    (hfile : ∀ fault, (world.runHook options source text).1 ≠ .error (.file fault)) :
    (world.runHook options source text).2 = world := by
  have hrun := world.hookRun_runHook options source text
  generalize world.runHook options source text = result at hrun hanswer hfile
  cases hrun with
  | untouched => rfl
  | uncompilable => rfl
  | failed => rfl
  | expanded => exact absurd rfl (hanswer _ _)
  | unwritten => exact absurd rfl (hfile _)

/-- A run of the hook that ends without an artifact has changed nothing, unless the artifact or its
directory could not be written. Then the text was expanded, and its source map is registered under
the path of the artifact; every other entry is as it was. -/
theorem registry_of_runHook
    (hfailed : ∀ expanded artifact,
      (world.runHook options source text).1 ≠ .ok (.expanded expanded artifact)) :
    ((∀ fault, (world.runHook options source text).1 ≠ .error (.file fault)) →
      (world.runHook options source text).2 = world) ∧
    ∀ fault, (world.runHook options source text).1 = .error (.file fault) →
      ∃ mapped,
        options.pipeline.transformSource source (options.artifactPath source) text = .ok mapped ∧
        (world.files.writeDeep (options.artifactPath source) mapped.text).2 = .error fault ∧
        (world.runHook options source text).2.registry = world.registry.register mapped.map ∧
        ∀ path, (world.runHook options source text).2.registry.find? path =
          if options.artifactPath source = path then some mapped.map
          else world.registry.find? path := by
  refine ⟨world_of_runHook hfailed, fun fault hfile => ?_⟩
  have hrun := world.hookRun_runHook options source text
  generalize world.runHook options source text = result at hrun hfile
  cases hrun with
  | untouched => cases hfile
  | uncompilable => cases hfile
  | expanded => cases hfile
  | failed _ _ htree =>
    obtain rfl := Except.error.inj hfile
    cases htree
  | @unwritten mapped files _ _ hdone hwrite =>
    obtain rfl := TransformError.file.inj (Except.error.inj hfile)
    refine ⟨mapped, hdone, by rw [hwrite], rfl, fun path => ?_⟩
    rw [← (Pipeline.paths_of_transformSource hdone).2]
    exact world.registry.find?_register mapped.map path

end World

/-! ## A blocked scratch directory -/

/-- The hook of the project in the working directory. -/
def localHook : HookOptions :=
  ⟨"transform!", ".", "tmp/phasespec", false, 2⟩

/-- A text that spells the marker and has nothing to expand. -/
def markedText : String :=
  (Tree.node "sym" [.symbol "transform!"] none).layout 2

/-- A working directory with a file where the scratch directory should be. -/
def World.blocked : World :=
  ⟨.empty, ⟨FileTable.home, [(FileTable.home ++ [['t', 'm', 'p']], .file "")]⟩⟩

/-- The marked text is mapped and emitted as it stands. -/
theorem exists_transformSource_markedText (source transformed : String) : ∃ mapped,
    (Pipeline.standard .lenient 2).transformSource source transformed markedText = .ok mapped ∧
      mapped.text = markedText := by
  let sample := Tree.node "sym" [.symbol "transform!"] none
  let placed := Tree.placed (.ofChars (sample.layout 2).toList) 2 0 0 sample
  have hreadable : sample.Readable := by
    unfold Tree.Readable
    decide
  have hplain : placed.Unannotated := by
    decide
  have hdone : (Pipeline.standard .lenient 2).expandText source markedText = .ok placed := by
    unfold markedText
    rw [Pipeline.expandText_layout _ _ rfl hreadable]
    exact Pass.runAll_standard hplain
  exact ⟨_, Pipeline.transformSource_of_expandText hdone,
    Tree.layout_eq_of_bare_eq (Tree.bare_placed sample 0 0) 2⟩

namespace World

/-- The text is expanded and its source map registered, but the artifact cannot be written. -/
theorem runHook_blocked : ∃ mapped : Mapped,
    blocked.runHook localHook "a.sexp" markedText =
      (.error (.file .notADirectory), ⟨Registry.empty.register mapped.map, blocked.files⟩) := by
  obtain ⟨mapped, hdone, -⟩ :=
    exists_transformSource_markedText "a.sexp" (localHook.artifactPath "a.sexp")
  have hartifact : localHook.artifactPath "a.sexp" = "./tmp/phasespec/a.sexp" := by
    decide
  have hwrite : blocked.files.writeDeep (localHook.artifactPath "a.sexp") mapped.text =
      (blocked.files, .error .notADirectory) := by
    rw [hartifact]
    rfl
  exact ⟨mapped, blocked.runHook_of_transformSource localHook _ _ (by decide) hdone hwrite⟩

/-- Where the scratch directory cannot be made, the hook fails and has registered the map. -/
theorem registry_of_runHook_blocked : ∃ mapped,
    (blocked.runHook localHook "a.sexp" markedText).1 = .error (.file .notADirectory) ∧
    localHook.pipeline.transformSource "a.sexp" (localHook.artifactPath "a.sexp") markedText =
      .ok mapped ∧
    (blocked.runHook localHook "a.sexp" markedText).2.registry =
      blocked.registry.register mapped.map := by
  obtain ⟨mapped, hrun⟩ := runHook_blocked
  obtain ⟨-, hblocked⟩ := registry_of_runHook blocked localHook "a.sexp" markedText
    (by rw [hrun]; exact nofun)
  obtain ⟨registered, hdone, -, hregistry, -⟩ := hblocked .notADirectory (by rw [hrun])
  exact ⟨registered, by rw [hrun], hdone, hregistry⟩

/-- A run that fails may have registered a source map. -/
theorem not_forall_registry_of_runHook :
    ¬ ∀ (world : World) (options : HookOptions) (source text : String),
      (∀ expanded artifact,
        (world.runHook options source text).1 ≠ .ok (.expanded expanded artifact)) →
      (world.runHook options source text).2.registry = world.registry := by
  intro hnothing
  obtain ⟨mapped, hrun⟩ := runHook_blocked
  have hsame := hnothing blocked localHook "a.sexp" markedText (by rw [hrun]; exact nofun)
  rw [hrun] at hsame
  cases congrArg Registry.size hsame

end World

end PhasedTests
