import PhasedTests.Generate.Method
import PhasedTests.Proofs.Generate.Locals
import PhasedTests.Proofs.Test.Parse

/-!
# The body of a generated test

The body of a test without a data table, told from its source statements: which statements stand
where, and what each statement of a verification phase becomes. A statement of a Then phase may act
in two places, before the action and after it; the number of an interaction ties them together.
-/

namespace PhasedTests.Generate

open Tree.Build
open TestMethod (phaseView)

/-- The statements of a Then phase, each with the number of interactions before it. -/
def numbered (ordinal : Nat) : List Tree → List (Tree × Nat)
  | [] => []
  | statement :: rest =>
    (statement, ordinal) ::
      numbered (if (Interaction.parsed? statement).isSome then ordinal + 1 else ordinal) rest

/-- The numbered statements are the statements. -/
theorem fst_mem_of_mem_numbered {ordinal : Nat} {thens : List Tree} {entry : Tree × Nat}
    (hmem : entry ∈ numbered ordinal thens) : entry.1 ∈ thens := by
  induction thens generalizing ordinal with
  | nil => cases hmem
  | cons statement rest ih =>
    rcases List.mem_cons.mp hmem with rfl | hmem
    · exact List.mem_cons_self
    · exact List.mem_cons_of_mem _ (ih hmem)

/-- The block that an interaction forwards. -/
def forwarded? (view : Ir.InteractionView) : Option Tree :=
  view.blockPass.bind fun pass => pass.nodeAt? 0

/-- The chain of calls that an interaction expects, at its place. -/
def expectation (view : Ir.InteractionView) (cardinality : Cardinality) (place : Option Span) :
    Tree :=
  (answerWith (requireCount (expectMessage view) cardinality) view.outcome).located place

/-- What a statement of a Then phase puts before the action: an interaction its expected chain, and
the capture of the block that it forwards. -/
def setupOf (entry : Tree × Nat) : List Tree :=
  match Interaction.parsed? entry.1 with
  | some (view, cardinality) =>
    expectation view cardinality entry.1.location ::
      ((forwarded? view).map fun block => (captureBlock view entry.2 block).1).toList
  | none => []

/-- What it leaves behind the action: an interaction the comparison of the block that it forwards,
an expected exception nothing, and any other statement its assertion. A product that is no
interaction stays as it is. -/
def checksOf (context : Context) (entry : Tree × Nat) : List Tree :=
  match Interaction.parsed? entry.1 with
  | some (view, _) =>
    ((forwarded? view).map fun block => (captureBlock view entry.2 block).2).toList
  | none =>
    if entry.1.isInteraction then [entry.1]
    else if (Statement.raised? entry.1).isSome then []
    else [assertion (Statement.condition context entry.1)]

/-- The action: the When statements, or one check that they raise the expected exception. -/
def actionOf (raises : Option Ir.RaisesView) (whens : List Tree) : List Tree :=
  match raises with
  | some view => [assertRaises view whens]
  | none => whens

/-- The statements of the body of a test, in the order in which they run. -/
def bodyStatements (context : Context) (statements : List Tree) : List Tree :=
  let thens := statementsIn .then statements
  statementsIn .given statements ++ (numbered 0 thens).flatMap setupOf ++
    actionOf (thens.findSome? Statement.raised?) (statementsIn .when statements) ++
    (numbered 0 thens).flatMap (checksOf context) ++
    (statementsIn .expect statements).map fun s => assertion (Statement.condition context s)

/-- Statements that are followed by a cleanup whatever happens, if there is any. -/
def cleanedUp (statements cleanup : List Tree) : Tree :=
  if cleanup.isEmpty then begin statements
  else fresh "kwbegin" [fresh "ensure" [begin statements, begin cleanup]]

/-- The body of a test: its statements and its cleanup, in which the index and the line of a data
row are locals. -/
def bodyOf (context : Context) (statements : List Tree) : Tree :=
  let asLocals := List.map (callsToLocals [testIndex, lineNumber])
  cleanedUp (asLocals (bodyStatements context statements))
    (asLocals (statementsIn .cleanup statements))

/-- Locals are read in the statements of a body, whose frame has no calls. -/
theorem callsToLocals_cleanedUp (names : List String) (statements cleanup : List Tree) :
    callsToLocals names (cleanedUp statements cleanup) =
      cleanedUp (statements.map (callsToLocals names)) (cleanup.map (callsToLocals names)) := by
  unfold cleanedUp begin fresh
  rw [List.isEmpty_map]
  split
  · rw [callsToLocals_node _ (by decide)]
  · rw [callsToLocals_node _ (by decide), List.map_singleton, callsToLocals_node _ (by decide),
      List.map_cons, List.map_singleton, callsToLocals_node _ (by decide),
      callsToLocals_node _ (by decide)]

/-- The body that is generated from sections. -/
theorem methodBody_of_sections {view : Ir.BodyView} {sections : Sections}
    (hsections : Sections.ofPhases view.phases = .ok sections) :
    methodBody view = .ok (cleanedUp
      (sections.statements.map (callsToLocals [testIndex, lineNumber]))
      (sections.cleanup.map (callsToLocals [testIndex, lineNumber]))) := by
  unfold methodBody
  rw [hsections]
  exact congrArg Except.ok (callsToLocals_cleanedUp _ sections.statements sections.cleanup)

/-! ## The statements of a Then phase -/

/-- The mock of an interaction whose cardinality can be resolved. -/
theorem mock_eq {view : Ir.InteractionView} {cardinality : Cardinality}
    (hcount : Cardinality.resolve view.cardinality = .ok cardinality) (place : Option Span)
    (ordinal : Nat) : mock view place ordinal =
      .ok ⟨expectation view cardinality place ::
          ((forwarded? view).map fun block => (captureBlock view ordinal block).1).toList,
        ((forwarded? view).map fun block => (captureBlock view ordinal block).2).toList⟩ := by
  unfold mock forwarded?
  rw [hcount]
  cases hpass : view.blockPass.bind fun pass => pass.nodeAt? 0 with
  | none => rfl
  | some block => rfl

/-- A list of at most one item is its first item. -/
theorem toList_head? {α : Type} {items : List α} (hlength : items.length ≤ 1) :
    items.head?.toList = items := by
  match items, hlength with
  | [], _ => rfl
  | [item], _ => rfl

/-- The sections with what a statement of a Then phase adds to them. -/
def withThen (context : Context) (sections : Sections) (entry : Tree × Nat) : Sections :=
  { sections with
    setup := sections.setup ++ setupOf entry
    checks := sections.checks ++ checksOf context entry
    raises := (sections.raises.toList ++ (Statement.raised? entry.1).toList).head? }

/-- One parsed statement of a Then phase, as long as it expects no second exception. -/
theorem addThen_cons {context : Context} {statement first : Tree} {later : List Tree}
    {sections : Sections} {ordinal : Nat} (hnode : statement.isNode = true)
    (hfirst : TestMethod.thenStatement context statement = .ok first)
    (hraises : (sections.raises.toList ++ (Statement.raised? statement).toList).length ≤ 1) :
    sections.addThen ordinal (first :: later) =
      (withThen context sections (statement, ordinal)).addThen
        (if (Interaction.parsed? statement).isSome then ordinal + 1 else ordinal) later := by
  have hkept : sections.raises.toList.head? = sections.raises := by
    cases sections.raises <;> rfl
  obtain ⟨hcase, -⟩ := TestMethod.thenCase_of_thenStatement hnode hfirst
  cases hcase with
  | interaction view cardinality hsource hview hcount hplace =>
    have hnone := Interaction.raised?_eq_none (Interaction.isInteraction_of_parsed? hsource)
    simp only [Sections.addThen, hview]
    rw [hplace, mock_eq hcount]
    simp only [withThen, setupOf, checksOf, hsource, hnone, Option.toList_none, List.append_nil,
      hkept]
    rfl
  | handedBack hinteraction hsource hparsed hview =>
    have hnone := Interaction.raised?_eq_none hinteraction
    have hassertion : assertion first = statement := by
      unfold assertion
      rw [hview, hparsed]
    simp only [Sections.addThen, hview]
    simp only [withThen, setupOf, checksOf, hsource, hinteraction, hnone, hassertion,
      Option.toList_none, List.append_nil, hkept, ↓reduceIte]
    rfl
  | raises view hinteraction hsource hview =>
    have hparsed := Interaction.parsed?_eq_none hinteraction
    have hunset : sections.raises = none := by
      cases hset : sections.raises with
      | none => rfl
      | some other =>
        rw [hset, hsource] at hraises
        simp at hraises
    simp only [Sections.addThen, hview, hunset]
    rw [if_neg (by decide)]
    simp only [withThen, setupOf, checksOf, hparsed, hinteraction, hsource, hunset,
      Option.isSome_some, Bool.false_eq_true, ↓reduceIte, List.append_nil]
    rfl
  | condition hinteraction hsource hcondition =>
    have hparsed := Interaction.parsed?_eq_none hinteraction
    have hstep : sections.addThen ordinal (first :: later) =
        { sections with
          checks := sections.checks ++ [assertion first] }.addThen ordinal later := by
      rw [hcondition]
      rcases @Statement.view_condition context statement hnode with
        ⟨hsame, hview⟩ | ⟨view, hview⟩ | ⟨view, hview⟩
      · simp only [Sections.addThen, hsame, hview]
      · simp only [Sections.addThen, hview]
      · simp only [Sections.addThen, hview]
    rw [hstep, hcondition]
    simp only [withThen, setupOf, checksOf, hparsed, hinteraction, hsource, Option.toList_none,
      List.append_nil, hkept, Option.isSome_none, Bool.false_eq_true, ↓reduceIte]

/-- The parsed statements of a Then phase add the setup and the checks of its source statements, as
long as no second exception is expected. -/
theorem addThen_eq {context : Context} {statements parsed : List Tree} {sections : Sections}
    {ordinal : Nat} (hnodes : Tree.AllNodes statements)
    (hparsed : statements.mapM (TestMethod.thenStatement context) = .ok parsed)
    (hraises : (sections.raises.toList ++ statements.filterMap Statement.raised?).length ≤ 1) :
    sections.addThen ordinal parsed = .ok
      { sections with
        setup := sections.setup ++ (numbered ordinal statements).flatMap setupOf
        checks := sections.checks ++ (numbered ordinal statements).flatMap (checksOf context)
        raises := (sections.raises.toList ++ statements.filterMap Statement.raised?).head? } := by
  induction statements generalizing parsed sections ordinal with
  | nil =>
    obtain rfl := Except.ok.inj hparsed
    have hhead : (sections.raises.toList ++ []).head? = sections.raises := by
      cases sections.raises <;> rfl
    rw [List.filterMap_nil, hhead, numbered, List.flatMap_nil, List.flatMap_nil, List.append_nil,
      List.append_nil]
    rfl
  | cons statement rest ih =>
    obtain ⟨first, later, hfirst, hlater, rfl⟩ := ok_of_mapM_cons hparsed
    have hexceptions : (statement :: rest).filterMap Statement.raised? =
        (Statement.raised? statement).toList ++ rest.filterMap Statement.raised? := by
      cases hraised : Statement.raised? statement with
      | none => exact List.filterMap_cons_none hraised
      | some view => exact List.filterMap_cons_some hraised
    rw [hexceptions, ← List.append_assoc] at hraises ⊢
    have hone : (sections.raises.toList ++ (Statement.raised? statement).toList).length ≤ 1 := by
      rw [List.length_append] at hraises
      omega
    have hraised : (withThen context sections (statement, ordinal)).raises.toList =
        sections.raises.toList ++ (Statement.raised? statement).toList := toList_head? hone
    rw [addThen_cons (hnodes statement List.mem_cons_self) hfirst hone,
      ih (fun t ht => hnodes t (List.mem_cons_of_mem _ ht)) hlater (by rwa [hraised]), hraised,
      numbered, List.flatMap_cons, List.flatMap_cons, ← List.append_assoc, ← List.append_assoc]
    rfl

/-! ## The phases of a test -/

/-- The statements of Then blocks, each with the number of interactions before it in its block. -/
def numberedThens (blocks : List Block) : List (Tree × Nat) :=
  (blocks.filter fun block => block.phase = .then).flatMap fun block => numbered 0 block.statements

private theorem numberedThens_cons (block : Block) (blocks : List Block) :
    numberedThens (block :: blocks) =
      (if block.phase = .then then numbered 0 block.statements else []) ++
        numberedThens blocks := by
  unfold numberedThens
  by_cases hthen : block.phase = .then
  · rw [List.filter_cons_of_pos (by simpa using hthen), if_pos hthen, List.flatMap_cons]
  · rw [List.filter_cons_of_neg (by simpa using hthen), if_neg hthen, List.nil_append]

/-- The statements of an Expect phase are parsed into their conditions. -/
private theorem expectStatements_eq (context : Context) (statements : List Tree) :
    statements.mapM (Statement.classify context false) =
      .ok (statements.map (Statement.condition context)) :=
  mapM_ok fun _ _ => rfl

/-- The sections with what a block adds to them. -/
def withBlock (context : Context) (sections : Sections) (blocks : List Block) : Sections :=
  { given := sections.given ++ Block.gathered .given blocks
    setup := sections.setup ++ (numberedThens blocks).flatMap setupOf
    action := sections.action ++ Block.gathered .when blocks
    checks := sections.checks ++ (numberedThens blocks).flatMap (checksOf context)
    expectations := sections.expectations ++ (Block.gathered .expect blocks).map fun s =>
      assertion (Statement.condition context s)
    cleanup := sections.cleanup ++ Block.gathered .cleanup blocks
    raises := (sections.raises.toList ++
      (Block.gathered .then blocks).filterMap Statement.raised?).head? }

/-- A parsed block, as long as no second exception is expected. -/
theorem add_eq {context : Context} {block : Block} {view : Ir.PhaseView}
    {sections : Sections} (hnodes : Tree.AllNodes block.statements)
    (hview : phaseView context block = .ok view)
    (hraises : (sections.raises.toList ++
      (Block.gathered .then [block]).filterMap Statement.raised?).length ≤ 1) :
    sections.add view = .ok (withBlock context sections [block]) := by
  obtain ⟨parsed, hparsed, rfl⟩ := ok_of_map hview
  obtain ⟨phase, introducer, statements⟩ := block
  have hgathered (other : Phase) : Block.gathered other [⟨phase, introducer, statements⟩] =
      if phase = other then statements else [] := by
    rw [Block.gathered_cons]
    exact List.append_nil _
  have hnumbered : numberedThens [⟨phase, introducer, statements⟩] =
      if phase = .then then numbered 0 statements else [] := by
    rw [numberedThens_cons]
    exact List.append_nil _
  unfold withBlock
  simp only [hgathered, hnumbered] at hraises ⊢
  cases phase with
  | start =>
    obtain rfl := Except.ok.inj hparsed
    simp [Sections.add]
  | given =>
    obtain rfl := Except.ok.inj hparsed
    simp [Sections.add]
  | «when» =>
    obtain rfl := Except.ok.inj hparsed
    simp [Sections.add]
  | «then» =>
    have hadded := @addThen_eq context statements parsed sections 0 hnodes hparsed hraises
    simpa [Sections.add] using hadded
  | expect =>
    obtain rfl := Except.ok.inj (hparsed.symm.trans (expectStatements_eq context statements))
    simp [Sections.add]
  | cleanup =>
    obtain rfl := Except.ok.inj hparsed
    simp [Sections.add]
  | «where» =>
    obtain rfl := Except.ok.inj hparsed
    simp [Sections.add]
  | finish =>
    obtain rfl := Except.ok.inj hparsed
    simp [Sections.add]

/-- The sections of the phases of a test, as long as no second exception is expected. -/
theorem foldlM_add_eq {context : Context} {blocks : List Block} {views : List Ir.PhaseView}
    {sections : Sections} (hnodes : ∀ block ∈ blocks, Tree.AllNodes block.statements)
    (hviews : blocks.mapM (phaseView context) = .ok views)
    (hraises : (sections.raises.toList ++
      (Block.gathered .then blocks).filterMap Statement.raised?).length ≤ 1) :
    views.foldlM Sections.add sections = .ok (withBlock context sections blocks) := by
  induction blocks generalizing views sections with
  | nil =>
    obtain rfl := Except.ok.inj hviews
    change Except.ok sections = _
    unfold withBlock
    simp [Block.gathered, numberedThens]
  | cons block rest ih =>
    obtain ⟨view, later, hview, hlater, rfl⟩ := ok_of_mapM_cons hviews
    have happend (phase : Phase) : Block.gathered phase (block :: rest) =
        Block.gathered phase [block] ++ Block.gathered phase rest := by
      rw [Block.gathered_cons, Block.gathered_cons]
      exact congrArg (· ++ _) (List.append_nil _).symm
    have hthens : numberedThens (block :: rest) = numberedThens [block] ++ numberedThens rest := by
      rw [numberedThens_cons, numberedThens_cons]
      exact congrArg (· ++ _) (List.append_nil _).symm
    rw [happend, List.filterMap_append, ← List.append_assoc] at hraises
    have hfirst : (sections.raises.toList ++
        (Block.gathered .then [block]).filterMap Statement.raised?).length ≤ 1 := by
      rw [List.length_append] at hraises
      omega
    rw [List.foldlM_cons, add_eq (hnodes block List.mem_cons_self) hview hfirst]
    refine (ih (fun b hb => hnodes b (List.mem_cons_of_mem _ hb)) hlater ?_).trans ?_
    · unfold withBlock
      rw [toList_head? hfirst]
      exact hraises
    · unfold withBlock
      simp only [happend, hthens, toList_head? hfirst, List.append_assoc, List.flatMap_append,
        List.map_append, List.filterMap_append]

end PhasedTests.Generate
