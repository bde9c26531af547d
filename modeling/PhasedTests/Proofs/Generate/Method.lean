import PhasedTests.Proofs.Generate.Body

/-!
# Generated methods

A parsed test without a data table is generated into its call, its parameters and the body that its
statements describe. Every statement of the test stands in one phase of that body.
-/

namespace PhasedTests.Generate

open Tree.Build
open TestMethod (phaseView)

/-- The body of the phases that blocks are parsed into, if the blocks hold the statements of every
phase that runs. -/
private theorem methodBody_of_gathered {context : Context} {statements : List Tree}
    {blocks : List Block} {views : List Ir.PhaseView}
    (hpairwise : blocks.Pairwise fun a b => a.phase.rank < b.phase.rank)
    (hnodes : ∀ block ∈ blocks, Tree.AllNodes block.statements)
    (hgathered : ∀ phase ∈ Phase.plain, Block.gathered phase blocks = statementsIn phase statements)
    (hviews : blocks.mapM (phaseView context) = .ok views)
    (hraises : ((statementsIn .then statements).filterMap Statement.raised?).length ≤ 1) :
    methodBody ⟨views⟩ = .ok (bodyOf context statements) := by
  have hnumbered : numberedThens blocks = numbered 0 (statementsIn .then statements) := by
    rw [← hgathered .then (by decide)]
    exact Block.flatMap_gathered hpairwise (numbered 0) rfl
  have hsections : Sections.ofPhases views = .ok (withBlock context .empty blocks) := by
    refine foldlM_add_eq hnodes hviews ?_
    rw [hgathered .then (by decide)]
    exact hraises
  have hstatements : (withBlock context .empty blocks).statements =
      bodyStatements context statements := by
    unfold Sections.statements withBlock Sections.empty bodyStatements
    dsimp only
    rw [← List.head?_filterMap, hnumbered, hgathered .given (by decide),
      hgathered .when (by decide), hgathered .then (by decide), hgathered .expect (by decide)]
    rfl
  have hcleanup : (withBlock context .empty blocks).cleanup =
      statementsIn .cleanup statements := hgathered .cleanup (by decide)
  rw [methodBody_of_sections hsections, hstatements, hcleanup]
  rfl

/-- The blocks of a test hold nodes. -/
theorem allNodes_of_split {t : Tree} {blocks : List Block}
    (hsplit : Block.split t.location t.testStatements = .ok blocks) :
    ∀ block ∈ blocks, Tree.AllNodes block.statements := fun _ hmem s hs =>
  t.allNodes_testStatements s ((Block.of_mem_split hsplit hmem).2.1 s hs)

/-- The body of the phases that the blocks of a test are parsed into. -/
private theorem methodBody_eq {context : Context} {t : Tree} {blocks : List Block}
    {views : List Ir.PhaseView} (hsplit : Block.split t.location t.testStatements = .ok blocks)
    (hviews : blocks.mapM (phaseView context) = .ok views)
    (hraises :
      ((statementsIn .then t.testStatements).filterMap Statement.raised?).length ≤ 1) :
    methodBody ⟨views⟩ = .ok (bodyOf context t.testStatements) := by
  refine methodBody_of_gathered (Block.pairwise_of_split hsplit) (allNodes_of_split hsplit)
    (fun phase hphase => Block.gathered_of_split (fun hstart => ?_) hsplit) hviews hraises
  rw [hstart] at hphase
  exact absurd hphase (by decide)

/-- What a parsed test with at most one expected exception is generated into: its call, its
parameters and its reassembled body, with a Where phase inside a loop over the rows of its table. -/
theorem method_cases {context : Context} {t test : Tree}
    (hparse : TestMethod.parse context t = .ok test)
    (hraises :
      ((statementsIn .then t.testStatements).filterMap Statement.raised?).length ≤ 1) :
    ∃ methodCall args, t.nodeAt? 0 = some methodCall ∧ t.nodeAt? 1 = some args ∧
      (((∀ s ∈ t.testStatements, s.introduces? ≠ some .where) ∧
        method test = .ok (fresh "block" [methodCall, args, bodyOf context t.testStatements])) ∨
      ((∃ s ∈ t.testStatements, s.introduces? = some .where) ∧
        ∃ header rows names, statementsIn .where t.testStatements = header :: rows ∧
          Table.columns header = .ok names ∧
          method test = .ok (loop ⟨methodCall, args⟩ (bodyOf context t.testStatements)
            ⟨names, rows.map Table.rowOf⟩))) := by
  obtain ⟨methodCall, args, blocks, phases, table, found, hcall, hargs, hsplit, rfl, -, hcase,
    hviews, hview⟩ := TestMethod.view_of_parse hparse
  have hbody : methodBody ⟨phases.filterMap Ir.PhaseView.of?⟩ =
      .ok (bodyOf context t.testStatements) := by
    refine methodBody_of_gathered ((Block.pairwise_of_split hsplit).filter _) ?_ ?_ hviews hraises
    · exact fun block hmem => allNodes_of_split hsplit block (List.mem_filter.mp hmem).1
    · intro phase hphase
      rw [Block.gathered_filter_where hphase]
      refine Block.gathered_of_split (fun hstart => ?_) hsplit
      rw [hstart] at hphase
      exact absurd hphase (by decide)
  refine ⟨methodCall, args, hcall, hargs, ?_⟩
  unfold method
  rw [hview]
  cases hcase with
  | none hwhere =>
    refine Or.inl ⟨hwhere, ?_⟩
    change (methodBody _ >>= _) = _
    rw [hbody]
    rfl
  | rows header rows names node hwhere hstatements hcolumns =>
    refine Or.inr ⟨hwhere, header, rows, names, hstatements, hcolumns, ?_⟩
    change (methodBody _ >>= _) = _
    rw [hbody]
    rfl

/-- A parsed test without a Where phase and with at most one expected exception is generated into
its call, its parameters and its reassembled body. Introducers aside, the statements of the test are
the statements of its phases, in this order. -/
theorem method_of_plain {context : Context} {t test : Tree}
    (hparse : TestMethod.parse context t = .ok test)
    (hwhere : ∀ s ∈ t.testStatements, s.introduces? ≠ some .where)
    (hraises :
      ((statementsIn .then t.testStatements).filterMap Statement.raised?).length ≤ 1) :
    ∃ methodCall args, t.nodeAt? 0 = some methodCall ∧ t.nodeAt? 1 = some args ∧
      method test = .ok (fresh "block" [methodCall, args, bodyOf context t.testStatements]) ∧
      t.testStatements.filter (fun s => s.introduces?.isNone) =
        Phase.plain.flatMap (statementsIn · t.testStatements) := by
  obtain ⟨methodCall, args, blocks, phases, table, hcall, hargs, hsplit, hblocks, rfl⟩ :=
    TestMethod.parse_cases hparse
  have hproper : ∀ block ∈ blocks, Tree.AllNodes block.statements ∧
      block.phase ∈ Phase.introduced ∧ block.phase ≠ .where := by
    intro block hmem
    obtain ⟨hintroduced, hstatements, -⟩ := Block.of_mem_split hsplit hmem
    refine ⟨fun s hs => t.allNodes_testStatements s (hstatements s hs), hintroduced, ?_⟩
    obtain ⟨s, hs, hphase⟩ := Block.introduces_of_mem_split hsplit hmem
    intro htable
    rw [htable] at hphase
    exact hwhere s hs hphase
  obtain ⟨rfl, hnodes, hviews⟩ := TestMethod.parseBlocks_cases hproper hblocks
  refine ⟨methodCall, args, hcall, hargs, ?_, ?_⟩
  · unfold method
    rw [TestMethod.testView_build (Tree.isNode_of_nodeAt? hcall) (Tree.isNode_of_nodeAt? hargs)
      hnodes]
    change (methodBody _ >>= _) = _
    rw [methodBody_eq hsplit hviews hraises]
    rfl
  · have hplain : ∀ block ∈ blocks, block.phase ∈ Phase.plain := by
      intro block hmem
      obtain ⟨-, hintroduced, hother⟩ := hproper block hmem
      revert hintroduced hother
      cases block.phase <;> decide
    have hpairwise := Block.pairwise_of_split hsplit
    rw [← Block.flatMap_statements_of_split hsplit,
      ← Block.flatMap_gathered_phases hpairwise hplain, List.flatMap_def, List.flatMap_def]
    refine congrArg List.flatten (List.map_congr_left fun phase hphase => ?_)
    refine Block.gathered_of_split (fun hstart => ?_) hsplit
    rw [hstart] at hphase
    exact absurd hphase (by decide)

end PhasedTests.Generate
