import PhasedTests.Pipeline
import PhasedTests.Proofs.Generate.Failure
import PhasedTests.Proofs.Phase.Grammar
import PhasedTests.Proofs.Test.Cells

/-!
# How an expansion fails

The phase expansion of a tree fails only at a test that is not written as it should be: its phases
are out of order, or one of its tables, interactions or expected exceptions is malformed. The error
is placed at a node of this test. Annotations may moreover name a transformation that does not
exist. Nothing is read or written on the way, and no step is handed anything that an earlier one
would not make.
-/

namespace PhasedTests

namespace TransformError

/-- An error in how a test is written. -/
def inTest : TransformError → Bool
  | phaseOrder _ | malformedTable _ _ | interactionSyntax _ _ | raisesCondition _ _ => true
  | unknownTransformation _ _ | parse _ | notATestBlock _ | notAParsedTest _
  | emittedUnreadable _ | file _ => false

/-- An error in how a test or an annotation is written. -/
def inTree : TransformError → Bool
  | unknownTransformation _ _ => true
  | e => e.inTest

private theorem inTree_of_inTest (e : TransformError) (htest : e.inTest = true) :
    e.inTree = true := by
  cases e <;> first | rfl | cases htest

/-- The error is about how a test is written, and it is placed at a node of the tree. -/
structure Blames (e : TransformError) (t : Tree) : Prop where
  inTest : e.inTest = true
  place : t.HasPlace e.location

end TransformError

/-! ## Reading a test -/

section

open PhasedTests.Tree (NodeInside HasPlace)

variable {t : Tree}

private theorem Statement.blames_of_classify (context : Context) (raisesAllowed : Bool) {s : Tree}
    (hs : NodeInside s t) : FailsOnly (·.Blames t) (classify context raisesAllowed s) := by
  unfold classify
  split
  · refine FailsOnly.bind ?_ fun built _ => ?_
    · unfold raises?
      split
      · exact failsOnly_ok _
      · split
        · exact failsOnly_ok _
        · exact failsOnly_error ⟨rfl, hs.hasPlace⟩
    · cases built <;> exact failsOnly_ok _
  · exact failsOnly_ok _

private theorem Cardinality.blames_of_boundAt {range : Tree} (hrange : NodeInside range t)
    (index : Nat)
    (which : String) : FailsOnly (·.Blames t) (boundAt range index which) := by
  unfold boundAt
  split
  · rename_i bound hbound
    split
    · exact failsOnly_ok _
    · exact failsOnly_error ⟨rfl, (hrange.of_nodeAt? hbound).hasPlace.or hrange.hasPlace⟩
  · exact failsOnly_error ⟨rfl, hrange.hasPlace⟩

private theorem Cardinality.nodeInside_of_range? {s range : Tree} (hs : NodeInside s t)
    (hrange : range? s = some range) : NodeInside range t := by
  unfold range? at hrange
  split at hrange
  · rename_i inner location
    split at hrange
    · rename_i htag
      obtain rfl := Option.some.inj hrange
      have hinner : Tree.Inside inner (.node "begin" [inner] location) :=
        .child List.mem_cons_self (.self inner)
      exact ⟨(Bool.and_eq_true_iff.mp htag).1, hinner.trans hs.inside⟩
    · cases hrange
  · cases hrange

private theorem Cardinality.blames_of_resolve {s : Tree} (hs : NodeInside s t) :
    FailsOnly (·.Blames t) (resolve s) := by
  unfold resolve
  split
  · exact failsOnly_ok _
  · split
    · exact failsOnly_ok _
    · split
      · exact failsOnly_error ⟨rfl, hs.hasPlace⟩
      · rename_i range hrange
        have hinside := nodeInside_of_range? hs hrange
        refine (blames_of_boundAt hinside _ _).bind fun lower _ => ?_
        refine (blames_of_boundAt hinside _ _).bind fun upper _ => ?_
        exact failsOnly_ok _

private theorem Interaction.blames_of_build {cardinality rhs : Tree}
    (hcardinality : NodeInside cardinality t) (hrhs : NodeInside rhs t) (outcome : Option Tree) :
    FailsOnly (·.Blames t) (build cardinality rhs outcome) := by
  unfold build
  dsimp only
  split
  · exact FailsOnly.bind (failsOnly_error ⟨rfl, hrhs.hasPlace⟩) fun _ hdone => nomatch hdone
  · split
    · exact failsOnly_ok _
    · exact failsOnly_error ⟨rfl, hrhs.hasPlace⟩
    · refine (Cardinality.blames_of_resolve hcardinality).bind fun count _ => ?_
      exact failsOnly_ok _

/-- The expectation of an interaction lies inside it. -/
theorem Interaction.inside_of_parts (s : Tree) : Tree.Inside (parts s).1 s := by
  unfold parts
  split
  · rename_i hcall
    exact Tree.inside_of_receiver hcall
  · exact .self s

private theorem Interaction.blames_of_parse {s : Tree} (hs : NodeInside s t) :
    FailsOnly (·.Blames t) (parse s) := by
  unfold parse
  split
  · dsimp only
    split
    · rename_i cardinality _ rhs hcall
      obtain ⟨hcardinality, hrhs⟩ := Tree.isNode_of_binaryCall? hcall
      obtain ⟨hleft, hright⟩ := Tree.inside_of_binaryCall? hcall
      have hexpectation := (inside_of_parts s).trans hs.inside
      refine (blames_of_build ⟨hcardinality, hleft.trans hexpectation⟩
        ⟨hrhs, hright.trans hexpectation⟩ _).bind fun built _ => ?_
      cases built <;> exact failsOnly_ok _
    · exact failsOnly_ok _
  · exact failsOnly_ok _

private theorem Table.blames_of_parse {block : Block} (hplace : t.HasPlace block.location)
    (hstatements : ∀ s ∈ block.statements, NodeInside s t) :
    FailsOnly (·.Blames t) (parse block) := by
  intro e hfailed
  cases parse_error_iff.mp hfailed with
  | noHeader => exact ⟨rfl, hplace⟩
  | @badHeaderCell header cell _ _ _ hrows hcells =>
    have hheader := hstatements header (hrows ▸ List.mem_cons_self)
    have hcell : cell ∈ cells header := hcells ▸ by simp
    have hinside : NodeInside cell t := ⟨allNodes_cells header hheader.isNode cell hcell,
      (inside_of_mem_cells hcell).trans hheader.inside⟩
    exact ⟨rfl, hinside.hasPlace.or hheader.hasPlace⟩
  | @wrongWidth _ row _ _ hrows => exact ⟨rfl, (hstatements row (hrows ▸ by simp)).hasPlace⟩

namespace TestMethod

private theorem blames_of_phaseNode (context : Context) {block : Block}
    (hstatements : ∀ s ∈ block.statements, NodeInside s t) :
    FailsOnly (·.Blames t) (phaseNode context block) := by
  refine FailsOnly.bind ?_ fun statements _ => failsOnly_ok _
  unfold phaseStatements
  split
  · refine failsOnly_mapM fun s hs => ?_
    unfold thenStatement
    split
    · exact Interaction.blames_of_parse (hstatements s hs)
    · exact Statement.blames_of_classify context true (hstatements s hs)
  · exact failsOnly_mapM fun s hs => Statement.blames_of_classify context false (hstatements s hs)
  · exact failsOnly_ok _

private theorem blames_of_parseBlocks (context : Context) {blocks : List Block}
    (hblocks : ∀ block ∈ blocks, t.HasPlace block.location ∧
      ∀ s ∈ block.statements, NodeInside s t) :
    FailsOnly (·.Blames t) (parseBlocks context blocks) := by
  induction blocks with
  | nil => exact failsOnly_ok _
  | cons block rest ih =>
    obtain ⟨⟨hplace, hstatements⟩, hrest⟩ := List.forall_mem_cons.mp hblocks
    rw [parseBlocks]
    split
    · refine (Table.blames_of_parse hplace hstatements).bind fun table _ => ?_
      exact (ih hrest).bind fun later _ => failsOnly_ok _
    · refine (blames_of_phaseNode context hstatements).bind fun phase _ => ?_
      exact (ih hrest).bind fun later _ => failsOnly_ok _

/-- The blocks of a test are placed at its introducers, and hold nodes inside the test. -/
theorem hasPlace_of_split {blocks : List Block}
    (hsplit : Block.split t.location t.testStatements = .ok blocks) :
    ∀ block ∈ blocks, t.HasPlace block.location ∧ ∀ s ∈ block.statements, NodeInside s t := by
  intro block hblock
  obtain ⟨⟨introducer, hintroducer, hplace⟩, hstatements⟩ := Block.mem_of_mem_source hsplit hblock
  rw [hplace]
  exact ⟨(Tree.nodeInside_of_mem_testStatements hintroducer).hasPlace,
    fun s hs => Tree.nodeInside_of_mem_testStatements (hstatements s hs)⟩

/-- Reading a test block fails only if the test is not written as it should be, and at a place
inside the test. -/
theorem blames_of_parse (context : Context) (htest : t.isTestBlock = true) :
    FailsOnly (·.Blames t) (parse context t) := by
  unfold Tree.isTestBlock at htest
  rw [Bool.and_eq_true, Bool.and_eq_true] at htest
  obtain ⟨⟨htag, hcall⟩, hargs⟩ := htest
  have hself : NodeInside t t := ⟨(Bool.and_eq_true_iff.mp htag).1, .self t⟩
  unfold parse
  split
  · split
    · rename_i cause hsplit
      refine failsOnly_error ⟨rfl, ?_⟩
      change t.HasPlace cause.location
      rcases Block.location_of_split hsplit with hplace | ⟨s, hs, hplace⟩
      · exact hplace ▸ hself.hasPlace
      · exact hplace ▸ (Tree.nodeInside_of_mem_testStatements hs).hasPlace.or hself.hasPlace
    · rename_i blocks hsplit
      refine (blames_of_parseBlocks context (hasPlace_of_split hsplit)).bind fun parsed _ => ?_
      exact failsOnly_ok _
  · rename_i hmissing
    cases hfirst : t.nodeAt? 0 with
    | none =>
      rw [hfirst] at hcall
      cases hcall
    | some methodCall =>
      cases hsecond : t.nodeAt? 1 with
      | none =>
        rw [hsecond] at hargs
        cases hargs
      | some args => exact absurd hsecond (hmissing methodCall args hfirst)

end TestMethod

end

/-! ## Expanding a tree -/

namespace Phases

/-- The expansion of a test block fails only at a place inside the test. -/
theorem blames_of_expandTest (mode : Mode) (context : Context) {t : Tree}
    (htest : t.isTestBlock = true) : FailsOnly (·.Blames t) (expandTest mode context t) := by
  unfold expandTest
  split
  · exact failsOnly_ok _
  · refine (TestMethod.blames_of_parse context htest).bind fun test hparse => ?_
    intro e hfailed
    obtain ⟨second, hsecond, rfl⟩ := (Generate.method_error_iff hparse e).mp hfailed
    have hmem := (List.mem_filter.mp (List.mem_of_getElem? hsecond)).1
    have hinside := Tree.nodeInside_of_mem_testStatements (mem_of_mem_statementsIn hmem).1
    exact ⟨rfl, hinside.hasPlace⟩

mutual

/-- The phase expansion fails only at a test that is not written as it should be. -/
theorem inTest_of_expand (mode : Mode) (context : Context) : ∀ t : Tree,
    FailsOnly (·.inTest = true) (expand mode context t)
  | .leaf value => by
    rw [expand]
    exact failsOnly_ok _
  | .node tag children location => by
    rw [expand]
    split
    · exact failsOnly_ok _
    · split
      · rename_i htest
        exact (blames_of_expandTest mode context htest).imp fun _ hblames => hblames.inTest
      · exact (inTest_of_expandAll mode context children).bind fun others _ => failsOnly_ok _

private theorem inTest_of_expandAll (mode : Mode) (context : Context) : ∀ trees : List Tree,
    FailsOnly (·.inTest = true) (expandAll mode context trees)
  | [] => by
    rw [expandAll]
    exact failsOnly_ok _
  | t :: rest => by
    rw [expandAll]
    refine (inTest_of_expand mode context t).bind fun first _ => ?_
    exact (inTest_of_expandAll mode context rest).bind fun later _ => failsOnly_ok _

end

/-- A parsed test is generated into a method unless its Then phase expects a second exception, and
then generation fails at that statement. So the phase expansion of any tree succeeds, or fails with
an error in how a test is written. -/
theorem failure_of_expand :
    (∀ (context : Context) (t test : Tree), TestMethod.parse context t = .ok test →
      ∀ e, Generate.method test = .error e ↔
        ∃ second, (raising (statementsIn .then t.testStatements))[1]? = some second ∧
          e = .raisesCondition .repeated second.location) ∧
    ∀ (mode : Mode) (context : Context) (t : Tree) (e : TransformError),
      expand mode context t = .error e → e.inTest = true :=
  ⟨fun _ _ _ hparse => Generate.method_error_iff hparse, inTest_of_expand⟩

/-- A test that expects two exceptions. -/
def greedyTest : Tree :=
  let word (name : String) := Tree.Build.call none name []
  let raises (name : String) (place : Span) :=
    (Tree.Build.call none "raises" [Tree.Build.constant none name]).located (some place)
  .node "block"
    [Tree.Build.call none "test" [Tree.Build.str "closes"], Tree.Build.fresh "args" [],
     Tree.Build.begin
       [word "When", word "act", word "Then", raises "Closed" ⟨0, 1, ⟨1, 1⟩, ⟨1, 1⟩⟩,
        raises "Locked" ⟨2, 3, ⟨2, 1⟩, ⟨2, 1⟩⟩]] none

/-- It is parsed, and its expansion fails at the second exception. -/
theorem failure_of_expand_greedyTest :
    ∃ test e, TestMethod.parse .detached greedyTest = .ok test ∧
      Generate.method test = .error (.raisesCondition .repeated (some ⟨2, 3, ⟨2, 1⟩, ⟨2, 1⟩⟩)) ∧
      expand .lenient .detached greedyTest = .error e ∧ e.inTest = true := by
  have hparse : ∃ test, TestMethod.parse .detached greedyTest = .ok test := ⟨_, rfl⟩
  have hfailed : ∃ e, expand .lenient .detached greedyTest = .error e := ⟨_, rfl⟩
  obtain ⟨test, hparse⟩ := hparse
  obtain ⟨e, hfailed⟩ := hfailed
  obtain ⟨hmethod, hkind⟩ := failure_of_expand
  refine ⟨test, e, hparse, (hmethod _ _ test hparse _).mpr ⟨_, rfl, rfl⟩, hfailed, ?_⟩
  exact hkind _ _ _ e hfailed

end Phases

/-! ## Expanding a file -/

namespace Annotations

private theorem inTree_of_apply (registry : Registry) (context : Context) (note target : Tree) :
    FailsOnly (·.inTree = true) (apply registry context note target) := by
  unfold apply
  refine FailsOnly.bind ?_ fun modes _ => ?_
  · refine failsOnly_mapM fun name _ => ?_
    split
    · exact failsOnly_ok _
    · exact failsOnly_error rfl
  · exact failsOnly_foldlM (fun t mode => (Phases.inTest_of_expand mode context t).imp
      TransformError.inTree_of_inTest) modes target

/-- Annotations fail only where one of them, or a test, is not written as it should be. -/
theorem inTree_of_expandAll (registry : Registry) (context : Context) (pending : Option Tree)
    (trees : List Tree) :
    FailsOnly (·.inTree = true) (expandAll registry context pending trees) := by
  fun_induction expandAll registry context pending trees with
  | case1 => exact failsOnly_ok _
  | case2 context pending value rest ih => exact ih.bind fun later _ => failsOnly_ok _
  | case3 =>
    rename_i ih
    exact ih
  | case4 =>
    rename_i ihinner ihothers
    refine ihinner.bind fun inner _ => ?_
    exact (ihothers inner.2).bind fun others _ => failsOnly_ok _
  | case5 =>
    rename_i hfailed
    exact failsOnly_error (inTree_of_apply _ _ _ _ _ hfailed)
  | case6 =>
    rename_i ihinner ihothers
    refine ihinner.bind fun inner _ => ?_
    exact (ihothers inner.1 inner.2).bind fun others _ => failsOnly_ok _

end Annotations

/-- Passes in a row fail only where an annotation or a test is not written as it should be. -/
theorem Pass.inTree_of_runAll (passes : List Pass) (context : Context) (t : Tree) :
    FailsOnly (·.inTree = true) (runAll context t passes) := by
  induction passes generalizing context t with
  | nil => exact failsOnly_ok t
  | cons pass rest ih =>
    refine FailsOnly.bind ?_ fun next _ => ih next.2 next.1
    cases pass with
    | annotations registry =>
      refine (Annotations.inTree_of_expandAll registry context none t.children).bind ?_
      exact fun inner _ => failsOnly_ok _
    | phases mode =>
      exact ((Phases.inTest_of_expand mode context t).imp TransformError.inTree_of_inTest).map _

end PhasedTests
