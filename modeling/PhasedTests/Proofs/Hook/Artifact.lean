import PhasedTests.Proofs.Files.Table
import PhasedTests.Proofs.Hook.Outcome

/-!
# Where artifacts go

An artifact lies in the scratch directory exactly if no step to a parent follows the project root in
the path of its source. Of a source outside the project only the names are kept, so its artifact
always does. What follows the root in the path of any other source is kept as it is, and a `..` in
it leads out of the scratch directory again.
-/

namespace PhasedTests

open PhasedTests.Path

/-- The directory that the artifacts of a hook go to. -/
def HookOptions.scratch (options : HookOptions) : List Char :=
  join options.projectRoot.toList options.scratchDir.toList

namespace Path

/-- Components are names if none of them is anything else. -/
theorem exists_names_iff {components : List Component} (hroot : .root ∉ components) :
    (∃ names : List (List Char), components = names.map Component.name) ↔
      .parent ∉ components ∧ .current ∉ components := by
  constructor
  · rintro ⟨names, rfl⟩
    constructor <;> intro hmem <;> obtain ⟨name, -, hname⟩ := List.mem_map.mp hmem <;> cases hname
  · rintro ⟨hparent, hcurrent⟩
    induction components with
    | nil => exact ⟨[], rfl⟩
    | cons component rest ih =>
      rw [List.mem_cons, not_or] at hroot hparent hcurrent
      obtain ⟨names, rfl⟩ := ih hroot.2 hparent.2 hcurrent.2
      cases component with
      | root => exact absurd rfl hroot.1
      | current => exact absurd rfl hcurrent.1
      | parent => exact absurd rfl hparent.1
      | name chars => exact ⟨chars :: names, rfl⟩

/-- Joined to a directory, a relative path stays within it if it has no step to a parent. In front
of everything else even a `.` is a component. -/
theorem within_join_iff {directory inner : List Char} (hrelative : isAbsolute inner = false) :
    Within directory (join directory inner) ↔
      .parent ∉ components inner ∧ (directory = [] → .current ∉ components inner) := by
  have hroot := root_not_mem_components hrelative
  unfold Within
  by_cases hempty : directory = []
  · subst hempty
    have hnone : components [] = [] := rfl
    simp only [join_nil, hnone, List.nil_append, exists_names_iff hroot, forall_const]
  · have hkept : .root ∉ (components inner).filter (· ≠ .current) :=
      fun hmem => hroot (List.mem_of_mem_filter hmem)
    simp only [components_join hempty hrelative, List.append_cancel_left_eq,
      exists_names_iff hkept]
    simp [hempty]

end Path

namespace HookOptions

variable (options : HookOptions) (source : String)

private theorem toList_artifactPath :
    (options.artifactPath source).toList =
      join options.scratch (options.relativePath source.toList) := by
  unfold artifactPath
  rw [String.toList_ofList]
  rfl

/-- The part of a source path that is mirrored is relative unless it is the whole of an absolute
path, and it leads out of the scratch directory exactly if it did so in the source path. -/
theorem within_artifactPath_iff
    (hrelative : options.projectRoot = "" → isAbsolute source.toList = false) :
    Within options.scratch (options.artifactPath source).toList ↔
      ∀ rest, components source.toList = components options.projectRoot.toList ++ rest →
        .parent ∉ rest ∧ (options.scratch = [] → .current ∉ rest) := by
  rw [toList_artifactPath]
  unfold relativePath
  cases hrest : stripPrefix? source.toList options.projectRoot.toList with
  | none =>
    have houtside := stripPrefix?_eq_none_iff.mp hrest
    obtain ⟨hnames, names, hcomponents⟩ := exists_components_namesOnly source.toList
    have hplain := (exists_names_iff (root_not_mem_components hnames)).mp ⟨names, hcomponents⟩
    rw [Option.getD_none, within_join_iff hnames]
    refine iff_of_true ⟨hplain.1, fun _ => hplain.2⟩ fun rest hsplit => ?_
    exact absurd ⟨rest, hsplit.symm⟩ houtside
  | some inner =>
    obtain ⟨hsplit, habsolute⟩ := components_of_stripPrefix? hrest
    have hinner : isAbsolute inner = false := by
      rw [habsolute, Bool.and_eq_false_imp]
      intro hroot
      exact hrelative (String.toList_eq_nil_iff.mp (List.isEmpty_iff.mp hroot))
    rw [Option.getD_some, within_join_iff hinner]
    constructor
    · intro hplain rest hother
      rw [hsplit, List.append_cancel_left_eq] at hother
      exact hother ▸ hplain
    · intro hplain
      exact hplain _ hsplit

/-- With no project root at all, an absolute source is its own artifact. -/
theorem components_artifactPath_of_absolute (hroot : options.projectRoot = "")
    (habsolute : isAbsolute source.toList = true) :
    components (options.artifactPath source).toList = components source.toList := by
  rw [toList_artifactPath]
  unfold relativePath
  rw [hroot]
  obtain ⟨hkept, htrimmed⟩ := components_trimPath source.toList
  have hstripped : stripPrefix? source.toList "".toList = some (trimPath source.toList) := rfl
  rw [hstripped, Option.getD_some]
  unfold join
  rw [if_pos (hkept.trans habsolute), htrimmed]

end HookOptions

variable (options : HookOptions) (source : String)

/-! ## What an artifact holds -/

/-- The source map of an expansion has as many lines as the emitted text, which ends with a line. -/
theorem Pipeline.lineCount_of_transformSource {pipeline : Pipeline}
    {source transformed text : String} {mapped : Mapped}
    (hdone : pipeline.transformSource source transformed text = .ok mapped) :
    mapped.map.lineCount = mapped.text.toList.count '\n' ∧
      mapped.text.toList.getLast? = some '\n' := by
  obtain ⟨expanded, hexpanded, -⟩ := ok_of_bind hdone
  rw [transformSource_of_expandText hexpanded] at hdone
  rw [← Except.ok.inj hdone]
  refine ⟨SourceMap.lineCount_build_placed (isNode_of_expandText hexpanded), ?_⟩
  dsimp only
  rw [Tree.layout, String.toList_ofList, List.getLast?_concat]

/-- An artifact holds the text that the hook answers with, and the map that is registered for it has
the lines of that text. -/
theorem World.artifact_of_runHook {world : World} {text expanded artifact : String}
    (hdone : (world.runHook options source text).1 = .ok (.expanded expanded artifact)) :
    artifact = options.artifactPath source ∧
      (world.runHook options source text).2.files.read artifact = .ok expanded ∧
      ∃ map, (world.runHook options source text).2.registry.find? artifact = some map ∧
        map.lineCount = expanded.toList.count '\n' ∧ expanded.toList.getLast? = some '\n' := by
  have hrun := world.hookRun_runHook options source text
  generalize world.runHook options source text = result at hrun hdone
  cases hrun with
  | untouched => cases hdone
  | uncompilable => cases hdone
  | failed => cases hdone
  | unwritten => cases hdone
  | @expanded mapped files _ hmapped hwrite =>
    obtain ⟨rfl, rfl⟩ := HookOutcome.expanded.inj (Except.ok.inj hdone)
    refine ⟨rfl, FileTable.read_of_writeDeep hwrite, mapped.map, ?_,
      Pipeline.lineCount_of_transformSource hmapped⟩
    rw [Registry.find?_register, if_pos (Pipeline.paths_of_transformSource hmapped).2]

/-! ## What a run may change -/

/-- An entry that a run of the hook changes is the artifact. -/
theorem World.fromRoot_of_runHook {world : World} {text : String} {location : Location}
    {entry : Entry}
    (hentry : world.files.entry? location = some entry)
    (hchanged :
      FileTable.entry? (world.runHook options source text).2.files location ≠ some entry) :
    (Place.ofComponents (components (options.artifactPath source).toList)).fromRoot
      world.files.directory = location := by
  have hrun := world.hookRun_runHook options source text
  generalize world.runHook options source text = result at hrun hchanged
  cases hrun with
  | untouched => exact absurd hentry hchanged
  | uncompilable => exact absurd hentry hchanged
  | failed => exact absurd hentry hchanged
  | expanded _ _ hwrite => exact FileTable.fromRoot_of_writeDeep hwrite hentry hchanged
  | unwritten _ _ hwrite => exact FileTable.fromRoot_of_writeDeep hwrite hentry hchanged

/-- Where artifacts go, for all options and sources. An artifact lies within the scratch directory
exactly if no step to a parent follows the project root in the path of its source, if it starts with
the root. Only when there is no project root, an absolute source is its own artifact. From within
the scratch directory no way to an artifact leaves it, and whatever a run of the hook changes lies
in there. -/
theorem confined_artifactPath :
    ((options.projectRoot = "" → isAbsolute source.toList = false) →
      (Within options.scratch (options.artifactPath source).toList ↔
        ∀ rest, components source.toList = components options.projectRoot.toList ++ rest →
          .parent ∉ rest ∧ (options.scratch = [] → .current ∉ rest))) ∧
    (options.projectRoot = "" → isAbsolute source.toList = true →
      components (options.artifactPath source).toList = components source.toList) ∧
    (Within options.scratch (options.artifactPath source).toList →
      (∀ way,
        components options.scratch ++ way <+: components (options.artifactPath source).toList →
        (Place.ofComponents (components options.scratch)).Contains
          (Place.ofComponents (components options.scratch ++ way))) ∧
      ∀ (world : World) (text : String) (location : Location) (entry : Entry),
        world.files.entry? location = some entry →
        FileTable.entry? (world.runHook options source text).2.files location ≠ some entry →
        (Place.ofComponents (components options.scratch)).fromRoot world.files.directory <+:
          location) := by
  refine ⟨options.within_artifactPath_iff source,
    options.components_artifactPath_of_absolute source, fun hwithin => ?_⟩
  refine ⟨fun way hway => hwithin.contains hway, ?_⟩
  intro world text location entry hentry hchanged
  rw [← World.fromRoot_of_runHook options source hentry hchanged]
  obtain ⟨names, hpath⟩ := hwithin
  rw [hpath]
  exact (Place.contains_ofComponents_names _ names).prefix_fromRoot _

/-- The hook of a project that is given from the root. -/
def rootedHook : HookOptions :=
  ⟨"transform!", "/work/app", "tmp", false, 2⟩

/-- The artifact of a source inside a project that is given from the root, and what a run for it may
change, from whatever directory it is run. -/
theorem confined_artifactPath_inside :
    (rootedHook.projectRoot = "" → isAbsolute "/work/app/test/a.sexp".toList = false) ∧
    Within rootedHook.scratch (rootedHook.artifactPath "/work/app/test/a.sexp").toList ∧
    ∀ (world : World) (text : String) (location : Location) (entry : Entry),
      world.files.entry? location = some entry →
      FileTable.entry? (world.runHook rootedHook "/work/app/test/a.sexp" text).2.files location ≠
        some entry →
      ["work".toList, "app".toList, "tmp".toList] <+: location := by
  have hroot : rootedHook.projectRoot = "" → isAbsolute "/work/app/test/a.sexp".toList = false :=
    nofun
  have hsource : components "/work/app/test/a.sexp".toList =
      components rootedHook.projectRoot.toList ++ [.name "test".toList, .name "a.sexp".toList] := by
    decide
  have hscratch : Place.ofComponents (components rootedHook.scratch) =
      ⟨true, 0, ["work".toList, "app".toList, "tmp".toList]⟩ := by
    decide
  obtain ⟨hwithin, -, hconfined⟩ := confined_artifactPath rootedHook "/work/app/test/a.sexp"
  have hinside := (hwithin hroot).mpr fun rest hrest => by
    rw [hsource, List.append_cancel_left_eq] at hrest
    rw [← hrest]
    decide
  rw [hscratch] at hconfined
  exact ⟨hroot, hinside, (hconfined hinside).2⟩

/-- A hook whose scratch directory lies directly in the project. -/
def projectHook : HookOptions :=
  ⟨"transform!", "work/app", "tmp", false, 2⟩

/-- A project with a file, and another directory beside it. -/
def project : World :=
  ⟨.empty, .ofFiles [("work/app/x.sexp", "(int 7)"), ("work/x.sexp", markedText)]⟩

/-- The artifact of a source beside the project replaces a file of the project. -/
theorem artifactPath_leaves_scratch :
    ¬ Within projectHook.scratch (projectHook.artifactPath "work/app/../x.sexp").toList ∧
    project.files.entry? (FileTable.home ++ ["work".toList, "app".toList, "x.sexp".toList]) =
      some (.file "(int 7)") ∧
    FileTable.entry? (project.runHook projectHook "work/app/../x.sexp" markedText).2.files
      (FileTable.home ++ ["work".toList, "app".toList, "x.sexp".toList]) =
        some (.file markedText) ∧
    ¬ (Place.ofComponents (components projectHook.scratch)).fromRoot project.files.directory <+:
      FileTable.home ++ ["work".toList, "app".toList, "x.sexp".toList] := by
  refine ⟨?_, by decide, ?_, by decide⟩
  · intro hwithin
    have hsource : components "work/app/../x.sexp".toList =
        components projectHook.projectRoot.toList ++ [.parent, .name "x.sexp".toList] := by
      decide
    have hplain := (projectHook.within_artifactPath_iff _ fun _ => by decide).mp hwithin _ hsource
    exact hplain.1 (by decide)
  · obtain ⟨mapped, hdone, htext⟩ := exists_transformSource_markedText "work/app/../x.sexp"
      (projectHook.artifactPath "work/app/../x.sexp")
    have hartifact : projectHook.artifactPath "work/app/../x.sexp" = "work/app/tmp/../x.sexp" := by
      decide
    obtain ⟨files, hwrite, hentry⟩ : ∃ files, project.files.writeDeep
        (projectHook.artifactPath "work/app/../x.sexp") mapped.text = (files, .ok ()) ∧
        files.entry? (FileTable.home ++ ["work".toList, "app".toList, "x.sexp".toList]) =
          some (.file markedText) := by
      rw [hartifact, htext]
      exact ⟨_, rfl, rfl⟩
    rw [project.runHook_of_transformSource projectHook _ _ (by decide) hdone hwrite]
    exact hentry

end PhasedTests
