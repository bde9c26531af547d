import PhasedTests.Proofs.Generate.Body

/-!
# Generated statements introduce no phases

A phase is introduced by a call without a receiver whose method is the name of the phase. The
statements of a phase introduce none, and neither does anything that is generated from them, so the
body of a generated test is not read as one in phases.
-/

namespace PhasedTests

namespace Generate

open Tree.Build

/-- A call of anything but the name of a phase. -/
theorem introduces?_call {receiver : Option Tree} {method : String} {args : List Tree}
    (hname : Phase.ofName? method = none) : (call receiver method args).introduces? = none := by
  unfold Tree.introduces?
  split
  · rename_i found _ hcall
    obtain ⟨_, hchildren, -⟩ := Tree.children_of_call? hcall
    have hsame : method = found := by
      simpa [call, fresh, Tree.children] using (List.cons.inj (List.cons.inj hchildren).2).1
    rw [← hsame]
    exact hname
  · rfl

/-! ## Assertions and mocks -/

private theorem introduces?_comparison (view : Ir.BinaryView) :
    (comparison view).introduces? = none := by
  unfold comparison
  split <;> exact introduces?_call (by decide)

private theorem introduces?_truth (view : Ir.StatementView) : (truth view).introduces? = none := by
  unfold truth
  dsimp only
  split <;> exact introduces?_call (by decide)

/-- The assertion of a statement introduces no phase unless the statement does. -/
theorem introduces?_assertion {s : Tree} (hquiet : s.introduces? = none) :
    (assertion s).introduces? = none := by
  unfold assertion
  split
  · rw [Tree.introduces?_located]
    exact introduces?_comparison _
  · rw [Tree.introduces?_located]
    exact introduces?_truth _
  · exact hquiet

private theorem introduces?_assertRaises (view : Ir.RaisesView) (action : List Tree) :
    (assertRaises view action).introduces? = none := by
  unfold assertRaises
  dsimp only
  split <;> exact Tree.introduces?_node (by decide)

private theorem introduces?_requireCount (chain : Tree) (cardinality : Cardinality) :
    (requireCount chain cardinality).introduces? = none := by
  unfold requireCount
  split <;> exact introduces?_call (by decide)

private theorem introduces?_answerWith {chain : Tree} {outcome : Option Tree}
    (hquiet : chain.introduces? = none) : (answerWith chain outcome).introduces? = none := by
  unfold answerWith
  split
  · exact introduces?_call (by decide)
  · exact introduces?_call (by decide)
  · exact hquiet

private theorem quiet_mock {view : Ir.InteractionView} {place : Option Span} {ordinal : Nat}
    {built : Mock} (hdone : mock view place ordinal = .ok built) :
    Quiet built.setup ∧ Quiet built.verification := by
  obtain ⟨cardinality, -, hdone⟩ := ok_of_bind hdone
  have hexpectation : ((answerWith (requireCount (expectMessage view) cardinality)
      view.outcome).located place).introduces? = none := by
    rw [Tree.introduces?_located]
    exact introduces?_answerWith (introduces?_requireCount _ _)
  dsimp only at hdone
  split at hdone
  · rw [← Except.ok.inj hdone]
    exact ⟨quiet_singleton hexpectation, quiet_nil⟩
  · rename_i forwarded _
    rw [← Except.ok.inj hdone]
    have hcapture : (captureBlock view ordinal forwarded).1.introduces? = none :=
      Tree.introduces?_node (by decide)
    have hcheck : (captureBlock view ordinal forwarded).2.introduces? = none :=
      introduces?_call (by decide)
    exact ⟨quiet_append (quiet_singleton hexpectation) (quiet_singleton hcapture),
      quiet_singleton hcheck⟩

/-! ## Sections -/

/-- No statement that runs before the cleanup introduces a phase. -/
structure Sections.Quiet (sections : Sections) : Prop where
  given : PhasedTests.Quiet sections.given
  setup : PhasedTests.Quiet sections.setup
  action : PhasedTests.Quiet sections.action
  checks : PhasedTests.Quiet sections.checks
  expectations : PhasedTests.Quiet sections.expectations

private theorem quiet_addThen {sections added : Sections} {ordinal : Nat} {statements : List Tree}
    (hquiet : sections.Quiet) (hstatements : Quiet statements)
    (hdone : sections.addThen ordinal statements = .ok added) : added.Quiet := by
  induction statements generalizing sections ordinal with
  | nil =>
    obtain rfl := Except.ok.inj hdone
    exact hquiet
  | cons statement rest ih =>
    have hrest : Quiet rest := fun s hs => hstatements s (List.mem_cons_of_mem _ hs)
    unfold Sections.addThen at hdone
    split at hdone
    · obtain ⟨built, hmock, hdone⟩ := ok_of_bind hdone
      obtain ⟨hsetup, hverification⟩ := quiet_mock hmock
      refine ih ?_ hrest hdone
      exact { hquiet with
        setup := quiet_append hquiet.setup hsetup
        checks := quiet_append hquiet.checks hverification }
    · split at hdone
      · cases hdone
      · refine ih ?_ hrest hdone
        exact { hquiet with }
    · have hassertion := introduces?_assertion (hstatements statement List.mem_cons_self)
      refine ih ?_ hrest hdone
      exact { hquiet with checks := quiet_append hquiet.checks (quiet_singleton hassertion) }

private theorem quiet_add {sections added : Sections} {view : Ir.PhaseView}
    (hquiet : sections.Quiet) (hstatements : Quiet view.statements)
    (hdone : sections.add view = .ok added) : added.Quiet := by
  unfold Sections.add at hdone
  split at hdone
  · rw [← Except.ok.inj hdone]
    exact { hquiet with given := quiet_append hquiet.given hstatements }
  · rw [← Except.ok.inj hdone]
    exact { hquiet with action := quiet_append hquiet.action hstatements }
  · rw [← Except.ok.inj hdone]
    exact { hquiet with }
  · rw [← Except.ok.inj hdone]
    exact { hquiet with
      expectations := quiet_append hquiet.expectations
        (quiet_map (fun _ => introduces?_assertion) hstatements) }
  · exact quiet_addThen hquiet hstatements hdone
  all_goals
    rw [← Except.ok.inj hdone]
    exact hquiet

/-- The sections of phases whose statements introduce no phase. -/
private theorem quiet_ofPhases {phases : List Ir.PhaseView} {sections : Sections}
    (hphases : ∀ view ∈ phases, Quiet view.statements)
    (hdone : Sections.ofPhases phases = .ok sections) : sections.Quiet := by
  refine foldlM_ok Sections.Quiet hdone ⟨quiet_nil, quiet_nil, quiet_nil, quiet_nil, quiet_nil⟩ ?_
  intro view hmem before after hbefore hstep
  exact quiet_add hbefore (hphases view hmem) hstep

private theorem Sections.Quiet.statements {sections : Sections} (hquiet : sections.Quiet) :
    PhasedTests.Quiet sections.statements := by
  have haction : PhasedTests.Quiet sections.checkedAction := by
    unfold Sections.checkedAction
    split
    · exact quiet_singleton (introduces?_assertRaises _ _)
    · exact hquiet.action
  exact quiet_append (quiet_append (quiet_append (quiet_append hquiet.given hquiet.setup) haction)
    hquiet.checks) hquiet.expectations

/-! ## Bodies -/

/-- The statements of a test with such a body. -/
theorem hasPhases_cleanedUp {statements cleanup : List Tree} (hquiet : Quiet statements)
    (head params : Tree) (location : Option Span) :
    hasPhases (Tree.node "block" [head, params, cleanedUp statements cleanup]
      location).testStatements = false := by
  apply hasPhases_of_quiet
  have hnode : (cleanedUp statements cleanup).isNode = true := by
    unfold cleanedUp
    split <;> rfl
  unfold Tree.testStatements
  rw [Tree.nodeAt?_succ, Tree.nodeAt?_succ, Tree.nodeAt?_zero hnode]
  dsimp only
  unfold cleanedUp
  split
  · rw [if_pos (by exact Tree.hasTag_self _ _ _)]
    exact fun s hs => hquiet s (List.mem_filter.mp hs).1
  · rw [if_neg (by simp [Tree.hasTag, fresh, Tree.tag])]
    exact quiet_singleton (Tree.introduces?_node (by decide))

/-- A generated body is the frame of statements that introduce no phase. -/
theorem quiet_methodBody {view : Ir.BodyView} {body : Tree}
    (hphases : ∀ phase ∈ view.phases, Quiet phase.statements)
    (hdone : methodBody view = .ok body) :
    ∃ statements cleanup, Quiet statements ∧ body = cleanedUp statements cleanup := by
  obtain ⟨sections, hsections, -⟩ := ok_of_bind hdone
  have hquiet := (quiet_ofPhases hphases hsections).statements
  rw [methodBody_of_sections hsections] at hdone
  exact ⟨_, _, quiet_map (fun _ => introduces?_callsToLocals _) hquiet, (Except.ok.inj hdone).symm⟩

end Generate

end PhasedTests
