import PhasedTests.Expansion.Containment.Parse
import PhasedTests.Proofs.Phase.Block
import PhasedTests.Proofs.Test.Statement
import PhasedTests.Proofs.Test.Table
import PhasedTests.Proofs.Tree.Inside

/-!
# The view of a parsed test

A test that was parsed is viewed as its call, its parameters and its phases again. A test without a
Where phase has no table, and each of its blocks is a phase.
-/

namespace PhasedTests

open PhasedTests.Tree (AllNodes)

/-- The statements of a test are nodes. -/
theorem Tree.allNodes_testStatements (t : Tree) : AllNodes t.testStatements := by
  unfold testStatements
  split
  · exact fun s hs => nomatch hs
  · rename_i body hbody
    split
    · exact fun s hs => (List.mem_filter.mp hs).2
    · intro s hs
      rw [List.mem_singleton.mp hs]
      exact isNode_of_nodeAt? hbody

/-- The statements of a test lie inside its children. -/
theorem Tree.inside_of_mem_testStatements {t s : Tree} (hmem : s ∈ t.testStatements) :
    ∃ c ∈ t.children, Inside s c := by
  unfold testStatements at hmem
  split at hmem
  · cases hmem
  · rename_i body hbody
    have hchild : body ∈ t.children :=
      List.mem_of_getElem? (Option.filter_eq_some_iff.mp hbody).1
    refine ⟨body, hchild, ?_⟩
    split at hmem
    · exact (Inside.self s).of_child (List.mem_filter.mp hmem).1
    · rw [List.mem_singleton.mp hmem]
      exact .self body

/-- They lie inside the test. -/
theorem Tree.nodeInside_of_mem_testStatements {t s : Tree} (hmem : s ∈ t.testStatements) :
    NodeInside s t := by
  obtain ⟨c, hc, hinside⟩ := inside_of_mem_testStatements hmem
  exact ⟨t.allNodes_testStatements s hmem, hinside.of_child hc⟩

namespace Block

/-- A block of a test opens a phase that can be introduced. It holds statements of the test, and
none of them introduces a phase. -/
theorem of_mem_split {test : Option Span} {statements : List Tree} {blocks : List Block}
    (hsplit : split test statements = .ok blocks) {block : Block} (hmem : block ∈ blocks) :
    block.phase ∈ Phase.introduced ∧ (∀ s ∈ block.statements, s ∈ statements) ∧
      Quiet block.statements := by
  have hwithin := @Assembly.of_splitAfter (fun _ _ => True) .nil test ⟨.start, none, []⟩
    statements blocks hsplit (fun hstarted => absurd rfl hstarted) (fun _ _ => trivial) block hmem
  have hphase : block.phase ≠ .start := by
    intro hstart
    have hintroduced := hwithin.introduced
    rw [hstart] at hintroduced
    exact absurd hintroduced (by decide)
  have hstatements (s : Tree) (hs : s ∈ block.statements) :
      s ∈ statements ∧ s.introduces? = none := by
    have hgathered := mem_gathered hmem hs
    rw [gathered_of_split hphase hsplit] at hgathered
    exact mem_of_mem_statementsIn hgathered
  exact ⟨hwithin.introduced, fun s hs => (hstatements s hs).1, fun s hs => (hstatements s hs).2⟩

/-- A block that follows was introduced by a statement. -/
private theorem introduces_of_mem_splitAfter {test : Option Span} {current : Block}
    {statements : List Tree} {blocks : List Block}
    (hsplit : splitAfter test current statements = .ok blocks) {block : Block}
    (hmem : block ∈ blocks) :
    block.phase = current.phase ∨ ∃ s ∈ statements, s.introduces? = some block.phase := by
  fun_induction splitAfter test current statements generalizing blocks with
  | case1 current _ =>
    obtain rfl := Except.ok.inj hsplit
    rw [List.mem_singleton.mp hmem]
    exact Or.inl rfl
  | case2 => cases hsplit
  | case3 current statement rest next hintroduces _ ih =>
    obtain ⟨later, hlater, hblocks⟩ := ok_of_bind hsplit
    have hcases : block = current ∨ block ∈ later := by
      rw [← Except.ok.inj hblocks] at hmem
      split at hmem
      · exact Or.inr hmem
      · exact List.mem_cons.mp hmem
    rcases hcases with rfl | hmem
    · exact Or.inl rfl
    · rcases ih hlater hmem with hphase | ⟨s, hs, hphase⟩
      · exact Or.inr ⟨statement, List.mem_cons_self, by rw [hintroduces, hphase]⟩
      · exact Or.inr ⟨s, List.mem_cons_of_mem _ hs, hphase⟩
  | case4 => cases hsplit
  | case5 => cases hsplit
  | case6 current statement rest _ _ ih =>
    rcases ih hsplit hmem with hphase | ⟨s, hs, hphase⟩
    · exact Or.inl hphase
    · exact Or.inr ⟨s, List.mem_cons_of_mem _ hs, hphase⟩

/-- The open block and every phase that is introduced after it get a block. -/
private theorem exists_block_of_splitAfter {test : Option Span} {current : Block}
    {statements : List Tree} {blocks : List Block}
    (hsplit : splitAfter test current statements = .ok blocks) :
    (current.phase ≠ .start → ∃ block ∈ blocks, block.phase = current.phase) ∧
      ∀ s ∈ statements, ∀ phase, s.introduces? = some phase →
        ∃ block ∈ blocks, block.phase = phase := by
  fun_induction splitAfter test current statements generalizing blocks with
  | case1 current _ =>
    obtain rfl := Except.ok.inj hsplit
    exact ⟨fun _ => ⟨current, List.mem_cons_self, rfl⟩, List.forall_mem_nil _⟩
  | case2 => cases hsplit
  | case3 current statement rest next hintroduces _ ih =>
    obtain ⟨later, hlater, hblocks⟩ := ok_of_bind hsplit
    obtain ⟨hopened, hothers⟩ := ih hlater
    have hmem : ∀ block ∈ later, block ∈ blocks := by
      intro block hmem
      rw [← Except.ok.inj hblocks]
      split
      · exact hmem
      · exact List.mem_cons_of_mem _ hmem
    have hnext : next ≠ .start := by
      intro hstart
      have hintroduced := Tree.mem_introduced hintroduces
      rw [hstart] at hintroduced
      exact absurd hintroduced (by decide)
    refine ⟨?_, List.forall_mem_cons.mpr ⟨?_, ?_⟩⟩
    · intro hstarted
      rw [← Except.ok.inj hblocks, if_neg hstarted]
      exact ⟨current, List.mem_cons_self, rfl⟩
    · intro phase hphase
      obtain rfl := Option.some.inj (hintroduces.symm.trans hphase)
      obtain ⟨block, hblock, hopen⟩ := hopened hnext
      exact ⟨block, hmem block hblock, hopen⟩
    · intro s hs phase hphase
      obtain ⟨block, hblock, hopen⟩ := hothers s hs phase hphase
      exact ⟨block, hmem block hblock, hopen⟩
  | case4 => cases hsplit
  | case5 => cases hsplit
  | case6 current statement rest hquiet _ ih =>
    obtain ⟨hopened, hothers⟩ := ih hsplit
    refine ⟨hopened, List.forall_mem_cons.mpr ⟨?_, hothers⟩⟩
    intro phase hphase
    rw [hquiet] at hphase
    cases hphase

/-- A phase that a statement of a test introduces has a block. -/
theorem exists_block_of_split {test : Option Span} {statements : List Tree} {blocks : List Block}
    (hsplit : split test statements = .ok blocks) {s : Tree} {phase : Phase}
    (hs : s ∈ statements) (hphase : s.introduces? = some phase) :
    ∃ block ∈ blocks, block.phase = phase :=
  (exists_block_of_splitAfter hsplit).2 s hs phase hphase

/-- Every block of a test was introduced by a statement. -/
theorem introduces_of_mem_split {test : Option Span} {statements : List Tree} {blocks : List Block}
    (hsplit : split test statements = .ok blocks) {block : Block} (hmem : block ∈ blocks) :
    ∃ s ∈ statements, s.introduces? = some block.phase := by
  rcases introduces_of_mem_splitAfter hsplit hmem with hstart | hintroduced
  · have hphase := (of_mem_split hsplit hmem).1
    rw [hstart] at hphase
    exact absurd hphase (by decide)
  · exact hintroduced

end Block

namespace TestMethod

/-- The view of the phase that a block is parsed into. -/
def phaseView (context : Context) (block : Block) : Except TransformError Ir.PhaseView :=
  (phaseStatements context block.phase block.statements).map (.mk block.phase)

/-- What a test is parsed into. -/
theorem parse_cases {context : Context} {t test : Tree} (hparse : parse context t = .ok test) :
    ∃ methodCall args blocks phases table,
      t.nodeAt? 0 = some methodCall ∧ t.nodeAt? 1 = some args ∧
      Block.split t.location t.testStatements = .ok blocks ∧
      parseBlocks context blocks = .ok (phases, table) ∧
      test = (Ir.TestView.build (Ir.DefView.build ⟨methodCall, args⟩) (Ir.BodyView.build phases)
        table).located t.location := by
  unfold parse at hparse
  split at hparse
  · rename_i methodCall args hcall hargs
    split at hparse
    · cases hparse
    · rename_i blocks hsplit
      obtain ⟨⟨phases, table⟩, hblocks, hdone⟩ := ok_of_bind hparse
      exact ⟨methodCall, args, blocks, phases, table, hcall, hargs, hsplit, hblocks,
        (Except.ok.inj hdone).symm⟩
  · cases hparse

private theorem allNodes_of_mapM {step : Tree → Except TransformError Tree}
    (hstep : ∀ s parsed, s.isNode = true → step s = .ok parsed → parsed.isNode = true)
    {statements parsed : List Tree} (hnodes : AllNodes statements)
    (hdone : statements.mapM step = .ok parsed) : AllNodes parsed := by
  intro t ht
  obtain ⟨s, hs, hparsed⟩ := exists_of_mem_mapM hdone ht
  exact hstep s t (hnodes s hs) hparsed

/-- The parsed statements of a phase are nodes. -/
private theorem allNodes_phaseStatements {context : Context} {phase : Phase}
    {statements parsed : List Tree} (hnodes : AllNodes statements)
    (hdone : phaseStatements context phase statements = .ok parsed) : AllNodes parsed := by
  unfold phaseStatements at hdone
  split at hdone
  · exact allNodes_of_mapM
      (fun s parsed hs hstep => (thenCase_of_thenStatement hs hstep).2) hnodes hdone
  · refine allNodes_of_mapM (fun s parsed hs hstep => ?_) hnodes hdone
    rw [← Except.ok.inj hstep]
    exact Statement.isNode_condition hs
  · rw [← Except.ok.inj hdone]
    exact hnodes

/-- The node that a block is parsed into has the view of its phase. -/
private theorem phaseNode_cases {context : Context} {block : Block} {phase : Tree}
    (hnodes : AllNodes block.statements) (hintroduced : block.phase ∈ Phase.introduced)
    (hwhere : block.phase ≠ .where) (hdone : phaseNode context block = .ok phase) :
    phase.isNode = true ∧
      ∃ view, phaseView context block = .ok view ∧ Ir.PhaseView.of? phase = some view := by
  obtain ⟨statements, hstatements, hdone⟩ := ok_of_bind hdone
  rw [← Except.ok.inj hdone]
  refine ⟨rfl, ⟨block.phase, statements⟩, ?_, ?_⟩
  · unfold phaseView
    rw [hstatements]
    rfl
  · exact Ir.PhaseView.of?_build hintroduced hwhere (allNodes_phaseStatements hnodes hstatements)

/-- Blocks are parsed into the phases other than Where, and the table of a Where block if there is
one. -/
theorem parseBlocks_split {context : Context} {blocks : List Block} {phases : List Tree}
    {table : Option Tree}
    (hproper : ∀ block ∈ blocks, AllNodes block.statements ∧ block.phase ∈ Phase.introduced)
    (hdone : parseBlocks context blocks = .ok (phases, table)) :
    AllNodes phases ∧
      (blocks.filter fun block => block.phase ≠ .where).mapM (phaseView context) =
        .ok (phases.filterMap Ir.PhaseView.of?) ∧
      (∀ node, table = some node →
        ∃ block ∈ blocks, block.phase = .where ∧ Table.parse block = .ok node) ∧
      (table = none → ∀ block ∈ blocks, block.phase ≠ .where) := by
  induction blocks generalizing phases table with
  | nil =>
    obtain ⟨rfl, rfl⟩ := Prod.mk.inj (Except.ok.inj hdone)
    exact ⟨List.forall_mem_nil _, rfl, by simp, by simp⟩
  | cons block rest ih =>
    have hrest := fun b hb => hproper b (List.mem_cons_of_mem block hb)
    rw [parseBlocks] at hdone
    by_cases hwhere : block.phase = .where
    · rw [if_pos hwhere] at hdone
      obtain ⟨found, hfound, hdone⟩ := ok_of_bind hdone
      obtain ⟨⟨later, other⟩, hlater, hdone⟩ := ok_of_bind hdone
      obtain ⟨rfl, rfl⟩ := Prod.mk.inj (Except.ok.inj hdone)
      obtain ⟨hnodes, hviews, htable, -⟩ := ih hrest hlater
      refine ⟨hnodes, ?_, ?_, ?_⟩
      · rw [List.filter_cons_of_neg (by simpa using hwhere)]
        exact hviews
      · intro node hnode
        rcases Option.or_eq_some_iff.mp hnode with hother | ⟨-, hnode⟩
        · obtain ⟨from', hfrom, hparsed⟩ := htable node hother
          exact ⟨from', List.mem_cons_of_mem _ hfrom, hparsed⟩
        · exact ⟨block, List.mem_cons_self, hwhere, by rw [hfound, Option.some.inj hnode]⟩
      · intro hnone
        cases other <;> cases hnone
    · rw [if_neg hwhere] at hdone
      obtain ⟨hstatements, hintroduced⟩ := hproper block List.mem_cons_self
      obtain ⟨phase, hphase, hdone⟩ := ok_of_bind hdone
      obtain ⟨⟨later, other⟩, hlater, hdone⟩ := ok_of_bind hdone
      obtain ⟨rfl, rfl⟩ := Prod.mk.inj (Except.ok.inj hdone)
      obtain ⟨hnodes, hviews, htable, hnone⟩ := ih hrest hlater
      obtain ⟨hnode, view, hview, hof⟩ := phaseNode_cases hstatements hintroduced hwhere hphase
      refine ⟨List.forall_mem_cons.mpr ⟨hnode, hnodes⟩, ?_, ?_, ?_⟩
      · rw [List.filter_cons_of_pos (by simpa using hwhere), List.mapM_cons, hview, hviews,
          List.filterMap_cons_some hof]
        rfl
      · intro node hnode
        obtain ⟨from', hfrom, hparsed⟩ := htable node hnode
        exact ⟨from', List.mem_cons_of_mem _ hfrom, hparsed⟩
      · exact fun hother => List.forall_mem_cons.mpr ⟨hwhere, hnone hother⟩

/-- Blocks without a Where phase are parsed into their phases and no table. -/
theorem parseBlocks_cases {context : Context} {blocks : List Block} {phases : List Tree}
    {table : Option Tree}
    (hproper : ∀ block ∈ blocks, AllNodes block.statements ∧ block.phase ∈ Phase.introduced ∧
      block.phase ≠ .where)
    (hdone : parseBlocks context blocks = .ok (phases, table)) :
    table = none ∧ AllNodes phases ∧
      blocks.mapM (phaseView context) = .ok (phases.filterMap Ir.PhaseView.of?) := by
  obtain ⟨hnodes, hviews, htable, -⟩ := parseBlocks_split
    (fun block hmem => ⟨(hproper block hmem).1, (hproper block hmem).2.1⟩) hdone
  have hplain : blocks.filter (fun block => block.phase ≠ .where) = blocks :=
    List.filter_eq_self.mpr fun block hmem => by simpa using (hproper block hmem).2.2
  rw [hplain] at hviews
  refine ⟨?_, hnodes, hviews⟩
  cases htables : table with
  | none => rfl
  | some node =>
    obtain ⟨block, hmem, hwhere, -⟩ := htable node htables
    exact absurd hwhere (hproper block hmem).2.2

/-- The view of a test, with or without a table. -/
theorem testView_build_table {methodCall args : Tree} {phases : List Tree} {place : Option Span}
    {table : Option Tree} {found : Option Ir.TableView} (hcall : methodCall.isNode = true)
    (hargs : args.isNode = true) (hphases : AllNodes phases)
    (hnode : ∀ node ∈ table, node.isNode = true)
    (htable : table.map Ir.TableView.of? = found.map some) :
    Ir.TestView.of? ((Ir.TestView.build (Ir.DefView.build ⟨methodCall, args⟩)
        (Ir.BodyView.build phases) table).located place) =
      some ⟨⟨methodCall, args⟩, ⟨phases.filterMap Ir.PhaseView.of?⟩, found⟩ := by
  have hdefinition : Ir.DefView.of? (Ir.DefView.build ⟨methodCall, args⟩) =
      some ⟨methodCall, args⟩ := by
    change Ir.DefView.of? (.node "ps_def" [methodCall, args] none) = _
    unfold Ir.DefView.of?
    rw [if_pos (Tree.hasTag_self _ _ _), Tree.nodeAt?_succ, Tree.nodeAt?_zero hcall,
      Tree.nodeAt?_zero hargs]
    rfl
  have hbody : Ir.BodyView.of? (Ir.BodyView.build phases) =
      some ⟨phases.filterMap Ir.PhaseView.of?⟩ := by
    change Ir.BodyView.of? (.node "ps_body" phases none) = _
    unfold Ir.BodyView.of?
    rw [if_pos (Tree.hasTag_self _ _ _), Tree.childNodes_of_allNodes hphases]
  have hread : Ir.TestView.table? (.node "ps_test" (Ir.DefView.build ⟨methodCall, args⟩ ::
      Ir.BodyView.build phases :: table.toList) place) = some found := by
    unfold Ir.TestView.table?
    rw [Tree.nodeAt?_succ, Tree.nodeAt?_succ]
    cases table with
    | none =>
      cases found with
      | none => rfl
      | some view => cases htable
    | some node =>
      rw [Option.toList_some, Tree.nodeAt?_zero (hnode node rfl)]
      cases found with
      | none => cases htable
      | some view => 
        obtain hview := Option.some.inj htable
        simp only [hview, Option.map_some]
  change Ir.TestView.of? (.node "ps_test" (Ir.DefView.build ⟨methodCall, args⟩ ::
    Ir.BodyView.build phases :: table.toList) place) = _
  unfold Ir.TestView.of?
  rw [if_pos (Tree.hasTag_self _ _ _), hread, Tree.nodeAt?_succ, Tree.nodeAt?_zero rfl,
    Tree.nodeAt?_zero rfl, Option.bind_some, Option.bind_some, hdefinition, hbody]
  rfl

/-- The view of a test without a table. -/
theorem testView_build {methodCall args : Tree} {phases : List Tree} {place : Option Span}
    (hcall : methodCall.isNode = true) (hargs : args.isNode = true) (hphases : AllNodes phases) :
    Ir.TestView.of? ((Ir.TestView.build (Ir.DefView.build ⟨methodCall, args⟩)
        (Ir.BodyView.build phases) none).located place) =
      some ⟨⟨methodCall, args⟩, ⟨phases.filterMap Ir.PhaseView.of?⟩, none⟩ :=
  testView_build_table hcall hargs hphases (fun _ hnone => nomatch hnone) rfl

/-- The data table of a test: none without a Where phase, and otherwise that of its statements. -/
inductive TableCase (statements : List Tree) : Option Tree → Option Ir.TableView → Prop where
  | none (hwhere : ∀ s ∈ statements, s.introduces? ≠ some .where) : TableCase statements none none
  | rows (header : Tree) (rows : List Tree) (names : List String) (node : Tree)
      (hwhere : ∃ s ∈ statements, s.introduces? = some .where)
      (hstatements : statementsIn .where statements = header :: rows)
      (hcolumns : Table.columns header = .ok names)
      (hwidth : ∀ row ∈ rows, (Table.cells row).length = names.length)
      (hnode : node.isNode = true)
      (hview : Ir.TableView.of? node = some ⟨names, rows.map Table.rowOf⟩) :
      TableCase statements (some node) (some ⟨names, rows.map Table.rowOf⟩)

/-- The table that the blocks of a test are parsed into. -/
private theorem tableCase_of_parseBlocks {t : Tree} {blocks : List Block} {table : Option Tree}
    (hsplit : Block.split t.location t.testStatements = .ok blocks)
    (htable : ∀ node, table = some node →
      ∃ block ∈ blocks, block.phase = .where ∧ Table.parse block = .ok node)
    (hnone : table = none → ∀ block ∈ blocks, block.phase ≠ .where) :
    ∃ found, TableCase t.testStatements table found := by
  cases htables : table with
  | none =>
    refine ⟨none, .none fun s hs hwhere => ?_⟩
    obtain ⟨block, hblock, hphase⟩ := Block.exists_block_of_split hsplit hs hwhere
    exact hnone htables block hblock hphase
  | some node =>
    obtain ⟨block, hblock, hphase, hparse⟩ := htable node htables
    obtain ⟨header, rows, names, hstatements, hcolumns, hwidth, rfl⟩ := Table.parse_cases hparse
    have hgathered := Block.gathered_of_mem (Block.pairwise_of_split hsplit) hblock
    rw [hphase, Block.gathered_of_split (by decide) hsplit, hstatements] at hgathered
    have hwhere := Block.introduces_of_mem_split hsplit hblock
    rw [hphase] at hwhere
    exact ⟨_, .rows header rows names _ hwhere hgathered hcolumns hwidth rfl Table.view_of_parse⟩

/-- The view of a parsed test: its call, its parameters, the phases other than Where, and the data
table of its Where phase if it has one. -/
theorem view_of_parse {context : Context} {t test : Tree} (hparse : parse context t = .ok test) :
    ∃ methodCall args blocks phases table found,
      t.nodeAt? 0 = some methodCall ∧ t.nodeAt? 1 = some args ∧
      Block.split t.location t.testStatements = .ok blocks ∧
      test = (Ir.TestView.build (Ir.DefView.build ⟨methodCall, args⟩) (Ir.BodyView.build phases)
        table).located t.location ∧
      AllNodes phases ∧ TableCase t.testStatements table found ∧
      (blocks.filter fun block => block.phase ≠ .where).mapM (phaseView context) =
        .ok (phases.filterMap Ir.PhaseView.of?) ∧
      Ir.TestView.of? test =
        some ⟨⟨methodCall, args⟩, ⟨phases.filterMap Ir.PhaseView.of?⟩, found⟩ := by
  obtain ⟨methodCall, args, blocks, phases, table, hcall, hargs, hsplit, hblocks, rfl⟩ :=
    parse_cases hparse
  have hproper : ∀ block ∈ blocks, AllNodes block.statements ∧
      block.phase ∈ Phase.introduced := by
    intro block hmem
    obtain ⟨hintroduced, hstatements, -⟩ := Block.of_mem_split hsplit hmem
    exact ⟨fun s hs => t.allNodes_testStatements s (hstatements s hs), hintroduced⟩
  obtain ⟨hnodes, hviews, htable, hnone⟩ := parseBlocks_split hproper hblocks
  obtain ⟨found, hcase⟩ := tableCase_of_parseBlocks hsplit htable hnone
  have hview : table.map Ir.TableView.of? = found.map some ∧
      ∀ node ∈ table, node.isNode = true := by
    cases hcase with
    | none => exact ⟨rfl, fun _ hnode => nomatch hnode⟩
    | rows header rows names node _ _ _ _ hnode hview =>
      refine ⟨?_, fun other hother => Option.some.inj hother ▸ hnode⟩
      rw [Option.map_some, hview, Option.map_some]
  exact ⟨methodCall, args, blocks, phases, table, found, hcall, hargs, hsplit, rfl, hnodes, hcase,
    hviews, testView_build_table (Tree.isNode_of_nodeAt? hcall) (Tree.isNode_of_nodeAt? hargs)
      hnodes hview.2 hview.1⟩

/-- Every statement of the Then phase of a parsed test can be parsed. -/
theorem thenStatement_of_parse {context : Context} {t test s : Tree}
    (hparse : parse context t = .ok test) (hs : s ∈ statementsIn .then t.testStatements) :
    ∃ parsed, thenStatement context s = .ok parsed := by
  obtain ⟨_, _, blocks, phases, table, found, -, -, hsplit, -, -, -, hviews, -⟩ :=
    view_of_parse hparse
  rw [← Block.gathered_of_split (by decide) hsplit] at hs
  obtain ⟨block, hblock, hs⟩ := List.mem_flatMap.mp hs
  obtain ⟨hblock, hthen⟩ := List.mem_filter.mp hblock
  have hphase : block.phase = .then := by simpa using hthen
  have hplain : block ∈ blocks.filter fun block => block.phase ≠ .where :=
    List.mem_filter.mpr ⟨hblock, by rw [hphase]; decide⟩
  obtain ⟨view, hview⟩ := exists_ok_of_mapM hviews hplain
  obtain ⟨parsed, hparsed, -⟩ := ok_of_map hview
  rw [hphase] at hparsed
  exact exists_ok_of_mapM hparsed hs

/-! ## Parsed statements introduce no phases -/

private theorem introduces?_condition {context : Context} {s : Tree}
    (hquiet : s.introduces? = none) : (Statement.condition context s).introduces? = none := by
  unfold Statement.condition
  split
  · exact hquiet
  · split
    · rw [Tree.introduces?_located]
      exact Tree.introduces?_node (by decide)
    · rw [Tree.introduces?_located]
      exact Tree.introduces?_node (by decide)

private theorem introduces?_thenStatement {context : Context} {s parsed : Tree}
    (hquiet : s.introduces? = none) (hdone : thenStatement context s = .ok parsed) :
    parsed.introduces? = none := by
  unfold thenStatement at hdone
  split at hdone
  · rcases Interaction.parse_cases hdone with rfl | ⟨view, -, -, rfl⟩
    · exact hquiet
    · rw [Tree.introduces?_located]
      exact Tree.introduces?_node (by decide)
  · unfold Statement.classify at hdone
    rw [if_pos rfl] at hdone
    obtain ⟨built, hbuilt, hdone⟩ := ok_of_bind hdone
    rcases Statement.raises?_cases hbuilt with ⟨-, rfl⟩ | ⟨view, -, -, rfl⟩
    · rw [← Except.ok.inj hdone]
      exact introduces?_condition hquiet
    · rw [← Except.ok.inj hdone, Tree.introduces?_located]
      exact Tree.introduces?_node (by decide)

private theorem quiet_phaseStatements {context : Context} {phase : Phase}
    {statements parsed : List Tree} (hquiet : Quiet statements)
    (hdone : phaseStatements context phase statements = .ok parsed) : Quiet parsed := by
  unfold phaseStatements at hdone
  split at hdone
  · intro t ht
    obtain ⟨s, hs, hparsed⟩ := exists_of_mem_mapM hdone ht
    exact introduces?_thenStatement (hquiet s hs) hparsed
  · intro t ht
    obtain ⟨s, hs, hparsed⟩ := exists_of_mem_mapM hdone ht
    rw [← Except.ok.inj hparsed]
    exact introduces?_condition (hquiet s hs)
  · rw [← Except.ok.inj hdone]
    exact hquiet

/-- Every phase node comes from a block. -/
private theorem phaseNode_of_mem_parseBlocks {context : Context} {blocks : List Block}
    {phases : List Tree} {table : Option Tree}
    (hdone : parseBlocks context blocks = .ok (phases, table)) {phase : Tree}
    (hmem : phase ∈ phases) : ∃ block ∈ blocks, phaseNode context block = .ok phase := by
  induction blocks generalizing phases table with
  | nil =>
    obtain ⟨rfl, -⟩ := Prod.mk.inj (Except.ok.inj hdone)
    cases hmem
  | cons block rest ih =>
    rw [parseBlocks] at hdone
    split at hdone
    · obtain ⟨found, -, hdone⟩ := ok_of_bind hdone
      obtain ⟨⟨later, other⟩, hlater, hdone⟩ := ok_of_bind hdone
      obtain ⟨rfl, -⟩ := Prod.mk.inj (Except.ok.inj hdone)
      obtain ⟨from', hfrom, hnode⟩ := ih hlater hmem
      exact ⟨from', List.mem_cons_of_mem _ hfrom, hnode⟩
    · obtain ⟨first, hfirst, hdone⟩ := ok_of_bind hdone
      obtain ⟨⟨later, other⟩, hlater, hdone⟩ := ok_of_bind hdone
      obtain ⟨rfl, -⟩ := Prod.mk.inj (Except.ok.inj hdone)
      rcases List.mem_cons.mp hmem with rfl | hmem
      · exact ⟨block, List.mem_cons_self, hfirst⟩
      · obtain ⟨from', hfrom, hnode⟩ := ih hlater hmem
        exact ⟨from', List.mem_cons_of_mem _ hfrom, hnode⟩

/-- The statements in the phases of a parsed test introduce no phase. -/
theorem quiet_of_parse {context : Context} {t test : Tree} {view : Ir.TestView}
    (hparse : parse context t = .ok test) (hview : Ir.TestView.of? test = some view) :
    ∀ phase ∈ view.body.phases, Quiet phase.statements := by
  obtain ⟨methodCall, args, blocks, phases, table, -, -, hsplit, hblocks, rfl⟩ :=
    parse_cases hparse
  obtain ⟨_, definition, -, body, ⟨node, hnode, hbody⟩, found, -, rfl⟩ := by
    simpa [Ir.TestView.of?, Option.bind_eq_some_iff] using hview
  have hsame : Ir.BodyView.build phases = node := by
    change (Tree.node "ps_test" (_ :: Ir.BodyView.build phases :: table.toList) _).nodeAt? 1 =
      some node at hnode
    rw [Tree.nodeAt?_succ, Tree.nodeAt?_zero rfl] at hnode
    exact Option.some.inj hnode
  obtain ⟨-, rfl⟩ : _ ∧ _ = body := by simpa [Ir.BodyView.of?] using hbody
  intro phase hphase s hs
  obtain ⟨built, hbuilt, hof⟩ := List.mem_filterMap.mp hphase
  rw [← hsame] at hbuilt
  obtain ⟨block, hblock, hdone⟩ :=
    phaseNode_of_mem_parseBlocks hblocks (List.mem_filter.mp hbuilt).1
  obtain ⟨statements, hstatements, hdone⟩ := ok_of_bind hdone
  have hquiet := quiet_phaseStatements (Block.of_mem_split hsplit hblock).2.2 hstatements
  obtain ⟨kind, -, rfl⟩ := Option.map_eq_some_iff.mp hof
  rw [← Except.ok.inj hdone] at hs
  exact hquiet s (List.mem_filter.mp hs).1

end TestMethod

end PhasedTests
