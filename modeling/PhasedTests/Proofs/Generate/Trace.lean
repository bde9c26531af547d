import PhasedTests.Proofs.Generate.Method
import PhasedTests.Proofs.Tree.Sequence

/-!
# Where statements go

For every statement of a test the node that is generated from it and the path of that node in the
generated method, whether the statement stays, is hoisted, is wrapped in a check for an exception or
in a cleanup, or runs inside the loop over a data table. Generated statements keep the places of
their sources.
-/

namespace PhasedTests.Generate

open Tree.Build

/-- A statement of a test, the node generated from it, and the path of this node. -/
structure Trace where
  source : Tree
  generated : Tree
  path : List Nat

/-- The trace seen from a tree around it. -/
def Trace.behind (above : List Nat) (trace : Trace) : Trace :=
  { trace with path := above ++ trace.path }

/-- A generated statement, with the traces that lead to it or into it. -/
structure Made where
  node : Tree
  traces : List Trace

namespace Made

/-- A node generated from a statement. -/
def ofSource (source generated : Tree) : Made :=
  ⟨generated, [⟨source, generated, []⟩]⟩

/-- A statement that stays as it is. -/
def kept (source : Tree) : Made :=
  ofSource source source

/-- A node that is generated beside that of a statement. -/
def extra (generated : Tree) : Made :=
  ⟨generated, []⟩

end Made

/-- The traces of statements in a sequence. -/
def inSequence (made : List Made) : List Trace :=
  (made.mapIdx fun index m => m.traces.map (Trace.behind [index])).flatten

/-- What a statement of a Then phase puts before the action. -/
def madeSetup (entry : Tree × Nat) : List Made :=
  match Interaction.parsed? entry.1 with
  | some (view, cardinality) =>
    .ofSource entry.1 (expectation view cardinality entry.1.location) ::
      ((forwarded? view).map fun block => .extra (captureBlock view entry.2 block).1).toList
  | none => []

/-- What it leaves behind the action. -/
def madeChecks (context : Context) (entry : Tree × Nat) : List Made :=
  match Interaction.parsed? entry.1 with
  | some (view, _) =>
    ((forwarded? view).map fun block => .extra (captureBlock view entry.2 block).2).toList
  | none =>
    if entry.1.isInteraction then [.kept entry.1]
    else if (Statement.raised? entry.1).isSome then []
    else [.ofSource entry.1 (assertion (Statement.condition context entry.1))]

/-- The path of the statements inside a check that they raise an exception. -/
def raisesPath (view : Ir.RaisesView) : List Nat :=
  if view.variableName.isSome then [1, 2] else [2]

/-- The action. -/
def madeAction (raises : Option Ir.RaisesView) (whens : List Tree) : List Made :=
  match raises with
  | some view =>
    [⟨assertRaises view whens,
      (inSequence (whens.map .kept)).map (Trace.behind (raisesPath view))⟩]
  | none => whens.map .kept

/-- The statements of the body of a test. -/
def madeStatements (context : Context) (statements : List Tree) : List Made :=
  let thens := statementsIn .then statements
  (statementsIn .given statements).map .kept ++ (numbered 0 thens).flatMap madeSetup ++
    madeAction (thens.findSome? Statement.raised?) (statementsIn .when statements) ++
    (numbered 0 thens).flatMap (madeChecks context) ++
    (statementsIn .expect statements).map fun s =>
      .ofSource s (assertion (Statement.condition context s))

/-- The traces of a test into its body. -/
def bodyTraces (context : Context) (statements : List Tree) : List Trace :=
  let cleanup := statementsIn .cleanup statements
  let run := inSequence (madeStatements context statements)
  if cleanup.isEmpty then run
  else run.map (Trace.behind [0, 0]) ++
    (inSequence (cleanup.map .kept)).map (Trace.behind [0, 1])

/-- The path of the body in what a test is generated into: a method, or a loop around it. -/
def bodyPath (statements : List Tree) : List Nat :=
  if statements.any fun s => s.introduces? == some .where then [2, 2] else [2]

/-- The traces of a test into what is generated from it. -/
def traces (context : Context) (t : Tree) : List Trace :=
  (bodyTraces context t.testStatements).map (Trace.behind (bodyPath t.testStatements))

/-! ## Traces lead to statements -/

/-- The trace starts at one of the statements and leads to a statement of a sequence in the tree,
which has kept the place of its source. -/
structure Trace.Leads (statements : List Tree) (t : Tree) (trace : Trace) : Prop where
  source : trace.source ∈ statements
  place : trace.generated.location = trace.source.location
  sequenced : t.Sequenced trace.path trace.generated

/-- A trace still leads to its statement when it is seen from a tree around it. -/
theorem Trace.Leads.behind {statements : List Tree} {t outer : Tree} {trace : Trace}
    {above : List Nat} (hleads : trace.Leads statements t) (houter : outer.dig? above = some t) :
    (trace.behind above).Leads statements outer :=
  ⟨hleads.source, hleads.place, hleads.sequenced.behind houter⟩

/-- The traces of a generated statement lead to the node itself or into it. -/
structure Made.Sound (statements : List Tree) (m : Made) : Prop where
  isNode : m.node.isNode = true
  leads : ∀ trace ∈ m.traces, trace.Leads statements m.node ∨
    (trace.source ∈ statements ∧ trace.generated.location = trace.source.location ∧
      trace.path = [] ∧ trace.generated = m.node)

variable {statements : List Tree}

/-- In a sequence all traces lead to statements. -/
theorem leads_of_mem_inSequence {made : List Made} (hsound : ∀ m ∈ made, m.Sound statements) :
    ∀ trace ∈ inSequence made, trace.Leads statements (begin (made.map Made.node)) := by
  intro trace hmem
  obtain ⟨traces, htraces, hmem⟩ := List.mem_flatten.mp hmem
  obtain ⟨index, hindex, rfl⟩ := List.mem_mapIdx.mp htraces
  obtain ⟨inner, hinner, rfl⟩ := List.mem_map.mp hmem
  obtain ⟨hnode, hleads⟩ := hsound _ (List.getElem_mem hindex)
  have hstatement : (made.map Made.node)[index]? = some made[index].node := by
    rw [List.getElem?_map, List.getElem?_eq_getElem hindex]
    rfl
  have hsequenced := @Tree.Sequenced.of_getElem? made[index].node _ index none hstatement hnode
  rcases hleads inner hinner with hinside | ⟨hsource, hplace, hpath, hgenerated⟩
  · exact hinside.behind hsequenced.dig?
  · refine ⟨hsource, hplace, ?_⟩
    change (Tree.node "begin" _ none).Sequenced ([index] ++ inner.path) inner.generated
    rw [hpath, hgenerated]
    exact hsequenced

namespace Made

private theorem sound_ofSource {source generated : Tree} (hsource : source ∈ statements)
    (hnode : generated.isNode = true) (hplace : generated.location = source.location) :
    (ofSource source generated).Sound statements := by
  refine ⟨hnode, fun trace hmem => Or.inr ?_⟩
  rw [List.mem_singleton.mp hmem]
  exact ⟨hsource, hplace, rfl, rfl⟩

private theorem sound_extra {generated : Tree} (hnode : generated.isNode = true) :
    (extra generated).Sound statements :=
  ⟨hnode, fun _ hmem => nomatch hmem⟩

end Made

variable {context : Context}

/-- Statements that stay. -/
private theorem sound_kept {kept : List Tree} (hnodes : Tree.AllNodes statements)
    (hkept : ∀ s ∈ kept, s ∈ statements) : ∀ m ∈ kept.map Made.kept, m.Sound statements := by
  intro m hm
  obtain ⟨s, hs, rfl⟩ := List.mem_map.mp hm
  exact Made.sound_ofSource (hkept s hs) (hnodes s (hkept s hs)) rfl

private theorem map_node_kept (kept : List Tree) : (kept.map Made.kept).map Made.node = kept := by
  rw [List.map_map]
  exact List.map_id _

/-- A node that was put at a place is there. -/
private theorem located_cases {t : Tree} (hnode : t.isNode = true) (place : Option Span) :
    (t.located place).isNode = true ∧ (t.located place).location = place := by
  cases t with
  | leaf value => cases hnode
  | node => exact ⟨rfl, rfl⟩

/-- The chain of an interaction is at the interaction's place. -/
private theorem expectation_cases (view : Ir.InteractionView) (cardinality : Cardinality)
    (place : Option Span) : (expectation view cardinality place).isNode = true ∧
      (expectation view cardinality place).location = place := by
  have hcount : (requireCount (expectMessage view) cardinality).isNode = true := by
    unfold requireCount
    split <;> rfl
  refine located_cases ?_ place
  unfold answerWith
  split
  · rfl
  · rfl
  · exact hcount

private theorem location_condition (s : Tree) :
    (Statement.condition context s).location = s.location := by
  unfold Statement.condition
  split
  · rfl
  · split <;> rfl

/-- The assertion of a statement is at the statement's place. -/
private theorem assertion_cases {s : Tree} (hnode : s.isNode = true) :
    (assertion (Statement.condition context s)).isNode = true ∧
      (assertion (Statement.condition context s)).location = s.location := by
  have hplace := @location_condition context s
  rcases @Statement.view_condition context s hnode with
    ⟨hsame, hview⟩ | ⟨view, hview⟩ | ⟨view, hview⟩
  · unfold assertion
    rw [hsame, hview]
    exact ⟨hnode, rfl⟩
  · have hcomparison : (comparison view).isNode = true := by
      unfold comparison
      split <;> rfl
    unfold assertion
    rw [hview, hplace]
    exact located_cases hcomparison s.location
  · have htruth : (truth view).isNode = true := by
      unfold truth
      split <;> rfl
    unfold assertion
    rw [hview, hplace]
    exact located_cases htruth s.location

/-! ## The pieces of a body -/

private theorem sound_madeSetup {entry : Tree × Nat} (hsource : entry.1 ∈ statements) :
    ∀ m ∈ madeSetup entry, m.Sound statements := by
  intro m hm
  unfold madeSetup at hm
  split at hm
  · rename_i view cardinality _
    obtain ⟨hnode, hplace⟩ := expectation_cases view cardinality entry.1.location
    rcases List.mem_cons.mp hm with rfl | hm
    · exact Made.sound_ofSource hsource hnode hplace
    · obtain ⟨block, -, rfl⟩ := Option.map_eq_some_iff.mp (Option.mem_toList.mp hm)
      exact Made.sound_extra rfl
  · cases hm

private theorem sound_madeChecks (hnodes : Tree.AllNodes statements) {entry : Tree × Nat}
    (hsource : entry.1 ∈ statements) : ∀ m ∈ madeChecks context entry, m.Sound statements := by
  intro m hm
  unfold madeChecks at hm
  split at hm
  · obtain ⟨block, -, rfl⟩ := Option.map_eq_some_iff.mp (Option.mem_toList.mp hm)
    exact Made.sound_extra rfl
  · split at hm
    · rw [List.mem_singleton.mp hm]
      exact Made.sound_ofSource hsource (hnodes entry.1 hsource) rfl
    · split at hm
      · cases hm
      · obtain ⟨hnode, hplace⟩ := @assertion_cases context entry.1 (hnodes entry.1 hsource)
        rw [List.mem_singleton.mp hm]
        exact Made.sound_ofSource hsource hnode hplace

/-- The statements of a checked action stand in a sequence. -/
private theorem dig?_raisesPath (view : Ir.RaisesView) (action : List Tree) :
    (assertRaises view action).dig? (raisesPath view) = some (begin action) := by
  unfold assertRaises raisesPath
  cases view.variableName with
  | none => rfl
  | some name => rfl

private theorem sound_madeAction (raises : Option Ir.RaisesView) {whens : List Tree}
    (hnodes : Tree.AllNodes statements) (hwhens : ∀ s ∈ whens, s ∈ statements) :
    ∀ m ∈ madeAction raises whens, m.Sound statements := by
  have hkept := sound_kept hnodes hwhens
  intro m hm
  unfold madeAction at hm
  split at hm
  · rename_i view
    rw [List.mem_singleton.mp hm]
    refine ⟨by unfold assertRaises; dsimp only; split <;> rfl, fun trace hmem => Or.inl ?_⟩
    obtain ⟨inner, hinner, rfl⟩ := List.mem_map.mp hmem
    have hleads := leads_of_mem_inSequence hkept inner hinner
    rw [map_node_kept] at hleads
    exact hleads.behind (dig?_raisesPath view whens)
  · exact hkept m hm

private theorem sound_madeStatements (hnodes : Tree.AllNodes statements) :
    ∀ m ∈ madeStatements context statements, m.Sound statements := by
  have hin (phase : Phase) : ∀ s ∈ statementsIn phase statements, s ∈ statements :=
    fun s hs => (mem_of_mem_statementsIn hs).1
  intro m hm
  simp only [madeStatements, List.mem_append] at hm
  rcases hm with (((hm | hm) | hm) | hm) | hm
  · exact sound_kept hnodes (hin .given) m hm
  · obtain ⟨entry, hentry, hm⟩ := List.mem_flatMap.mp hm
    exact sound_madeSetup (hin .then _ (fst_mem_of_mem_numbered hentry)) m hm
  · exact sound_madeAction _ hnodes (hin .when) m hm
  · obtain ⟨entry, hentry, hm⟩ := List.mem_flatMap.mp hm
    exact sound_madeChecks hnodes (hin .then _ (fst_mem_of_mem_numbered hentry)) m hm
  · obtain ⟨s, hs, rfl⟩ := List.mem_map.mp hm
    obtain ⟨hnode, hplace⟩ := @assertion_cases context s (hnodes s (hin .expect s hs))
    exact Made.sound_ofSource (hin .expect s hs) hnode hplace

/-- The traced statements are the statements of the body. -/
private theorem map_node_madeStatements (context : Context) (statements : List Tree) :
    (madeStatements context statements).map Made.node = bodyStatements context statements := by
  have hsetup (entry : Tree × Nat) : (madeSetup entry).map Made.node = setupOf entry := by
    unfold madeSetup setupOf
    cases Interaction.parsed? entry.1 with
    | none => rfl
    | some found =>
      obtain ⟨view, cardinality⟩ := found
      dsimp only
      cases forwarded? view <;> rfl
  have hchecks (entry : Tree × Nat) :
      (madeChecks context entry).map Made.node = checksOf context entry := by
    unfold madeChecks checksOf
    cases Interaction.parsed? entry.1 with
    | none =>
      dsimp only
      split
      · rfl
      · split <;> rfl
    | some found =>
      obtain ⟨view, cardinality⟩ := found
      dsimp only
      cases forwarded? view <;> rfl
  have haction (raises : Option Ir.RaisesView) (whens : List Tree) :
      (madeAction raises whens).map Made.node = actionOf raises whens := by
    cases raises with
    | none => exact map_node_kept whens
    | some view => rfl
  have hexpect (expects : List Tree) :
      (expects.map fun s =>
        Made.ofSource s (assertion (Statement.condition context s))).map Made.node =
      expects.map fun s => assertion (Statement.condition context s) := by
    rw [List.map_map]
    rfl
  unfold madeStatements bodyStatements
  simp only [List.map_append, List.map_flatMap, hsetup, hchecks, haction, hexpect, map_node_kept]

/-! ## The traces of a test -/

/-- The traces of a test lead to statements of its body. -/
private theorem leads_of_mem_bodyTraces (hnodes : Tree.AllNodes statements) :
    ∀ trace ∈ bodyTraces context statements, trace.Leads statements
      (cleanedUp (bodyStatements context statements) (statementsIn .cleanup statements)) := by
  have hcleanup : ∀ s ∈ statementsIn .cleanup statements, s ∈ statements :=
    fun s hs => (mem_of_mem_statementsIn hs).1
  have hrun := leads_of_mem_inSequence (@sound_madeStatements statements context hnodes)
  have hlast := leads_of_mem_inSequence (sound_kept hnodes hcleanup)
  rw [map_node_madeStatements] at hrun
  rw [map_node_kept] at hlast
  intro trace hmem
  unfold bodyTraces at hmem
  dsimp only at hmem
  unfold cleanedUp
  split at hmem
  · rename_i hempty
    rw [if_pos hempty]
    exact hrun trace hmem
  · rename_i hsome
    rw [if_neg hsome]
    rcases List.mem_append.mp hmem with hmem | hmem
    · obtain ⟨inner, hinner, rfl⟩ := List.mem_map.mp hmem
      exact (hrun inner hinner).behind rfl
    · obtain ⟨inner, hinner, rfl⟩ := List.mem_map.mp hmem
      exact (hlast inner hinner).behind rfl

/-- With locals read in the tree a trace leads to its statement with locals read in it. -/
theorem sequenced_callsToLocals (names : List String) {t statement : Tree} {path : List Nat}
    (hsequenced : t.Sequenced path statement) :
    (callsToLocals names t).Sequenced path (callsToLocals names statement) := by
  obtain ⟨above, index, sequence, rfl, habove, hbegin, hstatement⟩ := hsequenced
  refine ⟨above, index, callsToLocals names sequence, rfl, ?_, begin_callsToLocals names hbegin, ?_⟩
  · rw [dig?_callsToLocals, habove, Option.map_some]
  · rw [nodeAt?_callsToLocals, hstatement, Option.map_some]

/-- The third child of a block. -/
private theorem dig?_block {first second third : Tree} {location : Option Span}
    (hnode : third.isNode = true) :
    (Tree.node "block" [first, second, third] location).dig? [2] = some third := by
  rw [Tree.dig?_singleton, Tree.nodeAt?_succ, Tree.nodeAt?_succ, Tree.nodeAt?_zero hnode]

/-- Every trace of a parsed test starts at a statement of the test and leads to a statement of a
sequence in the generated method. That statement is the trace's node, which is at the source's
place, with locals read in it. -/
theorem sequenced_of_mem_traces {t test generated : Tree}
    (hparse : TestMethod.parse context t = .ok test) (hmethod : method test = .ok generated)
    (hraises :
      ((statementsIn .then t.testStatements).filterMap Statement.raised?).length ≤ 1) :
    ∀ trace ∈ traces context t, trace.source ∈ t.testStatements ∧
      trace.generated.location = trace.source.location ∧
      ∃ names, generated.Sequenced trace.path
        (callsToLocals names (callsToLocals [testIndex, lineNumber] trace.generated)) := by
  intro trace hmem
  obtain ⟨inner, hinner, rfl⟩ := List.mem_map.mp hmem
  obtain ⟨hsource, hplace, hsequenced⟩ :=
    leads_of_mem_bodyTraces t.allNodes_testStatements inner hinner
  have hbody : (bodyOf context t.testStatements).Sequenced inner.path
      (callsToLocals [testIndex, lineNumber] inner.generated) := by
    have hlocals := sequenced_callsToLocals [testIndex, lineNumber] hsequenced
    rwa [callsToLocals_cleanedUp] at hlocals
  refine ⟨hsource, hplace, ?_⟩
  have hnode : (bodyOf context t.testStatements).isNode = true := by
    unfold bodyOf cleanedUp
    dsimp only
    split <;> rfl
  obtain ⟨methodCall, args, -, -, hplain | hloop⟩ := method_cases hparse hraises
  · obtain ⟨hwhere, hdone⟩ := hplain
    obtain rfl := Except.ok.inj (hmethod.symm.trans hdone)
    have hpath : bodyPath t.testStatements = [2] := by
      unfold bodyPath
      rw [if_neg]
      simpa using hwhere
    refine ⟨[], ?_⟩
    rw [callsToLocals_nil, Trace.behind, hpath]
    exact hbody.behind (dig?_block hnode)
  · obtain ⟨⟨s, hs, hwhere⟩, header, rows, names, -, -, hdone⟩ := hloop
    obtain rfl := Except.ok.inj (hmethod.symm.trans hdone)
    have hpath : bodyPath t.testStatements = [2] ++ [2] := by
      unfold bodyPath
      rw [if_pos (List.any_eq_true.mpr ⟨s, hs, by rw [hwhere]; rfl⟩)]
      rfl
    let inside := fresh "block" [indexedTestName methodCall, args, bodyOf context t.testStatements]
    have hinside : inside.Sequenced ([2] ++ inner.path) _ := hbody.behind (dig?_block hnode)
    have hlocals := sequenced_callsToLocals names hinside
    have hmethodNode : (callsToLocals names inside).isNode = true := by
      rw [isNode_callsToLocals]
      rfl
    refine ⟨names, ?_⟩
    rw [Trace.behind, hpath, List.append_assoc]
    exact hlocals.behind (dig?_block hmethodNode)

/-! ## Every statement has a trace -/

/-- Which node is generated from which statement of a test. A statement that expects an exception
has no node of its own: it becomes the check around the action, a block, which always breaks. -/
inductive GeneratedFrom (context : Context) (statements : List Tree) : Tree → Tree → Prop where
  | kept {phase : Phase} {s : Tree} (hphase : phase ∈ [.given, .when, .cleanup])
      (hs : s ∈ statementsIn phase statements) : GeneratedFrom context statements s s
  | expectation {s : Tree} {view : Ir.InteractionView} {cardinality : Cardinality}
      (hs : s ∈ statementsIn .then statements)
      (hparsed : Interaction.parsed? s = some (view, cardinality)) :
      GeneratedFrom context statements s (expectation view cardinality s.location)
  | handedBack {s : Tree} (hs : s ∈ statementsIn .then statements)
      (hinteraction : s.isInteraction = true) (hparsed : Interaction.parsed? s = none) :
      GeneratedFrom context statements s s
  | check {s : Tree} (hs : s ∈ statementsIn .then statements)
      (hinteraction : s.isInteraction = false) (hraised : Statement.raised? s = none) :
      GeneratedFrom context statements s (assertion (Statement.condition context s))
  | expect {s : Tree} (hs : s ∈ statementsIn .expect statements) :
      GeneratedFrom context statements s (assertion (Statement.condition context s))

/-- One of the generated statements has a trace from a statement to a node. -/
def Traced (made : List Made) (source generated : Tree) : Prop :=
  ∃ m ∈ made, ∃ path, ⟨source, generated, path⟩ ∈ m.traces

variable {source generated : Tree}

private theorem traced_ofSource {made : List Made} (hmem : .ofSource source generated ∈ made) :
    Traced made source generated :=
  ⟨_, hmem, [], List.mem_singleton_self _⟩

private theorem exists_inSequence {made : List Made} (htraced : Traced made source generated) :
    ∃ path, ⟨source, generated, path⟩ ∈ inSequence made := by
  obtain ⟨m, hm, path, htrace⟩ := htraced
  obtain ⟨index, hindex, rfl⟩ := List.getElem_of_mem hm
  refine ⟨[index] ++ path, List.mem_flatten.mpr ⟨_, List.mem_mapIdx.mpr ⟨index, hindex, rfl⟩, ?_⟩⟩
  exact List.mem_map.mpr ⟨_, htrace, rfl⟩

private theorem exists_behind {traces : List Trace} (above : List Nat)
    (htrace : ∃ path, ⟨source, generated, path⟩ ∈ traces) :
    ∃ path, ⟨source, generated, path⟩ ∈ traces.map (Trace.behind above) := by
  obtain ⟨path, htrace⟩ := htrace
  exact ⟨above ++ path, List.mem_map.mpr ⟨_, htrace, rfl⟩⟩

private theorem traced_madeAction (raises : Option Ir.RaisesView) {whens : List Tree}
    (hs : source ∈ whens) : Traced (madeAction raises whens) source source := by
  have hkept : Traced (whens.map .kept) source source :=
    traced_ofSource (List.mem_map_of_mem hs)
  unfold madeAction
  split
  · rename_i view
    exact ⟨_, List.mem_singleton_self _, exists_behind _ (exists_inSequence hkept)⟩
  · exact hkept

private theorem exists_numbered {thens : List Tree} (hs : source ∈ thens) (ordinal : Nat) :
    ∃ number, (source, number) ∈ numbered ordinal thens := by
  induction thens generalizing ordinal with
  | nil => cases hs
  | cons statement rest ih =>
    rcases List.mem_cons.mp hs with rfl | hs
    · exact ⟨ordinal, List.mem_cons_self⟩
    · obtain ⟨number, hnumber⟩ := ih hs _
      exact ⟨number, List.mem_cons_of_mem _ hnumber⟩

private theorem traced_mono {piece made : List Made} (htraced : Traced piece source generated)
    (hpiece : ∀ m ∈ piece, m ∈ made) : Traced made source generated := by
  obtain ⟨m, hm, htrace⟩ := htraced
  exact ⟨m, hpiece m hm, htrace⟩

/-- A statement that does not clean up is traced among the statements of the body. -/
private theorem traced_madeStatements (hfrom : GeneratedFrom context statements source generated) :
    Traced (madeStatements context statements) source generated ∨
      (source ∈ statementsIn .cleanup statements ∧ generated = source) := by
  have hsplit (m : Made) : m ∈ madeStatements context statements ↔
      (((m ∈ (statementsIn .given statements).map .kept ∨
        m ∈ (numbered 0 (statementsIn .then statements)).flatMap madeSetup) ∨
        m ∈ madeAction ((statementsIn .then statements).findSome? Statement.raised?)
          (statementsIn .when statements)) ∨
        m ∈ (numbered 0 (statementsIn .then statements)).flatMap (madeChecks context)) ∨
        m ∈ (statementsIn .expect statements).map fun s =>
          .ofSource s (assertion (Statement.condition context s)) := by
    simp only [madeStatements, List.mem_append]
  cases hfrom with
  | kept hphase hs =>
    simp only [List.mem_cons, List.not_mem_nil, or_false] at hphase
    rcases hphase with rfl | rfl | rfl
    · have hkept := traced_ofSource (List.mem_map_of_mem (f := Made.kept) hs)
      exact Or.inl (traced_mono hkept fun m hm => (hsplit m).mpr (by simp [hm]))
    · have haction := traced_madeAction ((statementsIn .then statements).findSome?
        Statement.raised?) hs
      exact Or.inl (traced_mono haction fun m hm => (hsplit m).mpr (by simp [hm]))
    · exact Or.inr ⟨hs, rfl⟩
  | expectation hs hparsed =>
    obtain ⟨number, hnumber⟩ := exists_numbered hs 0
    refine Or.inl (traced_ofSource ((hsplit _).mpr ?_))
    refine Or.inl (Or.inl (Or.inl (Or.inr (List.mem_flatMap.mpr ⟨_, hnumber, ?_⟩))))
    simp only [madeSetup, hparsed]
    exact List.mem_cons_self
  | handedBack hs hinteraction hparsed =>
    obtain ⟨number, hnumber⟩ := exists_numbered hs 0
    refine Or.inl (traced_ofSource ((hsplit _).mpr ?_))
    refine Or.inl (Or.inr (List.mem_flatMap.mpr ⟨_, hnumber, ?_⟩))
    simp only [madeChecks, hparsed, hinteraction, if_true]
    exact List.mem_singleton_self _
  | check hs hinteraction hraised =>
    obtain ⟨number, hnumber⟩ := exists_numbered hs 0
    refine Or.inl (traced_ofSource ((hsplit _).mpr ?_))
    refine Or.inl (Or.inr (List.mem_flatMap.mpr ⟨_, hnumber, ?_⟩))
    simp only [madeChecks, Interaction.parsed?_eq_none hinteraction, hinteraction, hraised]
    exact List.mem_singleton_self _
  | expect hs =>
    exact Or.inl (traced_ofSource ((hsplit _).mpr (Or.inr (List.mem_map.mpr ⟨_, hs, rfl⟩))))

/-- Every statement with a node generated from it has a trace to this node. -/
theorem exists_mem_traces {t : Tree}
    (hfrom : GeneratedFrom context t.testStatements source generated) :
    ∃ path, ⟨source, generated, path⟩ ∈ traces context t := by
  refine exists_behind _ ?_
  unfold bodyTraces
  dsimp only
  rcases traced_madeStatements hfrom with hrun | ⟨hcleanup, rfl⟩
  · split
    · exact exists_inSequence hrun
    · obtain ⟨path, htrace⟩ := exists_behind [0, 0] (exists_inSequence hrun)
      exact ⟨path, List.mem_append_left _ htrace⟩
  · have hlast : Traced ((statementsIn .cleanup t.testStatements).map .kept) generated generated :=
      traced_ofSource (List.mem_map_of_mem hcleanup)
    split
    · rename_i hempty
      rw [List.isEmpty_iff.mp hempty] at hcleanup
      cases hcleanup
    · obtain ⟨path, htrace⟩ := exists_behind [0, 1] (exists_inSequence hlast)
      exact ⟨path, List.mem_append_right _ htrace⟩

end PhasedTests.Generate
