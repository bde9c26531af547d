import PhasedTests.Generate.Assertion
import PhasedTests.Proofs.Interaction.Parse
import PhasedTests.Test.Parse

/-!
# What verification statements are parsed as

A statement of a Then phase is an interaction, an expected exception, or something that is checked
where it stands. Which of them it is can be told from the statement, and the view of the parsed
statement agrees.
-/

namespace PhasedTests

namespace Statement

/-- The expected exception that a statement states: the first node among the arguments of a `raises`
call, and the variable that the call is assigned to. -/
def raised? (statement : Tree) : Option Ir.RaisesView :=
  (raisesCall? statement).bind fun (args, variableName) =>
    (Tree.nodesOf args).head?.map fun exception => ⟨exception, variableName⟩

/-- An expected exception is parsed into its view, at its place. -/
theorem raises?_cases {statement : Tree} {built : Option Tree}
    (hdone : raises? statement = .ok built) :
    (raised? statement = none ∧ built = none) ∨
      ∃ view : Ir.RaisesView, raised? statement = some view ∧ view.exception.isNode = true ∧
        built = some (view.build.located statement.location) := by
  unfold raises? at hdone
  unfold raised?
  split at hdone
  · rename_i hnone
    rw [hnone]
    exact Or.inl ⟨rfl, (Except.ok.inj hdone).symm⟩
  · rename_i args variableName hfound
    split at hdone
    · rename_i exception others hnodes
      have hmem : exception ∈ Tree.nodesOf args := hnodes ▸ List.mem_cons_self
      rw [hfound]
      refine Or.inr ⟨⟨exception, variableName⟩, ?_, (List.mem_filter.mp hmem).2,
        (Except.ok.inj hdone).symm⟩
      simp only [Option.bind_some, hnodes, List.head?_cons, Option.map_some]
    · cases hdone

/-- A condition is viewed as a comparison or as a statement, or not at all. -/
theorem view_condition {context : Context} {statement : Tree} (hnode : statement.isNode = true) :
    (condition context statement = statement ∧ Ir.View.of? statement = none) ∨
      (∃ view, Ir.View.of? (condition context statement) = some (.binary view)) ∨
      ∃ view, Ir.View.of? (condition context statement) = some (.statement view) := by
  unfold condition
  split
  · rename_i hassignment
    refine Or.inl ⟨rfl, Ir.View.of?_eq_none ?_⟩
    unfold Tree.tagIn at hassignment
    rw [Bool.and_eq_true, List.contains_iff_mem] at hassignment
    have hhost : ∀ tag ∈ assignmentTags, tag ∉ Ir.reservedTags := by decide
    exact hhost _ hassignment.2
  · split
    · rename_i view hview
      unfold comparison? at hview
      split at hview
      · rename_i lhs operator rhs hcall
        split at hview
        · rw [← Option.some.inj hview]
          obtain ⟨hlhs, hrhs⟩ := Tree.isNode_of_binaryCall? hcall
          exact Or.inr (Or.inl ⟨_, Ir.View.of?_binary hlhs hrhs⟩)
        · cases hview
      · cases hview
    · exact Or.inr (Or.inr ⟨_, Ir.View.of?_statement hnode⟩)

/-- A statement that is checked is parsed into a node. -/
theorem isNode_condition {context : Context} {statement : Tree} (hnode : statement.isNode = true) :
    (condition context statement).isNode = true := by
  unfold condition
  split
  · exact hnode
  · split <;> rfl

end Statement

/-- The interaction that a statement of a Then phase is parsed as, with its cardinality. -/
def Interaction.parsed? (statement : Tree) : Option (Ir.InteractionView × Cardinality) :=
  if statement.isInteraction then
    match Interaction.parse statement with
    | .ok parsed =>
      (Ir.InteractionView.of? parsed).bind fun view =>
        match Cardinality.resolve view.cardinality with
        | .ok cardinality => some (view, cardinality)
        | .error _ => none
    | .error _ => none
  else none

/-- Interactions are calls. -/
theorem Interaction.tag_cases {statement : Tree} (hinteraction : statement.isInteraction = true) :
    statement.tag = "send" ∨ statement.tag = "csend" := by
  unfold Tree.isInteraction at hinteraction
  split at hinteraction
  · rw [Bool.and_eq_true, Bool.or_eq_true, beq_iff_eq, beq_iff_eq] at hinteraction
    exact hinteraction.1
  · cases hinteraction

/-- So they have no view of their own. -/
theorem Interaction.view_eq_none {statement : Tree}
    (hinteraction : statement.isInteraction = true) :
    Ir.View.of? statement = none ∧ Ir.InteractionView.of? statement = none := by
  constructor
  · apply Ir.View.of?_eq_none
    rcases tag_cases hinteraction with htag | htag
    · rw [htag]
      decide
    · rw [htag]
      decide
  · have hother : statement.hasTag "ps_interaction" = false := by
      unfold Tree.hasTag
      rcases tag_cases hinteraction with htag | htag
      · rw [htag, Bool.and_eq_false_iff]
        exact Or.inr rfl
      · rw [htag, Bool.and_eq_false_iff]
        exact Or.inr rfl
    unfold Ir.InteractionView.of?
    rw [hother]
    rfl

/-- Interactions have a receiver, so they expect no exception. -/
theorem Interaction.raised?_eq_none {statement : Tree}
    (hinteraction : statement.isInteraction = true) : Statement.raised? statement = none := by
  have hassigned : Statement.assigned statement = some (statement, none) := by
    unfold Statement.assigned Tree.hasTag
    rcases tag_cases hinteraction with htag | htag
    · rw [htag, if_neg (by simp)]
    · rw [htag, if_neg (by simp)]
  have hcall : ∀ args, statement.call? ≠ some ⟨none, "raises", args⟩ := by
    intro args hcall
    unfold Tree.isInteraction at hinteraction
    split at hinteraction
    · rename_i tag receiver method argument location
      have hmethod : method = "raises" := by
        obtain ⟨_, hchildren, -⟩ := Tree.children_of_call? hcall
        simpa [Tree.children] using (List.cons.inj (List.cons.inj hchildren).2).1
      rw [hmethod] at hinteraction
      simp at hinteraction
    · cases hinteraction
  unfold Statement.raised? Statement.raisesCall?
  rw [hassigned]
  dsimp only
  split
  · rename_i args hfound
    exact absurd hfound (hcall args)
  · rfl

/-- Only interactions are parsed as such. -/
theorem Interaction.parsed?_eq_none {statement : Tree}
    (hinteraction : statement.isInteraction = false) : parsed? statement = none := by
  unfold parsed?
  rw [if_neg (by rw [hinteraction]; decide)]

/-- What is parsed as an interaction is one. -/
theorem Interaction.isInteraction_of_parsed? {statement : Tree}
    {found : Ir.InteractionView × Cardinality} (hsource : parsed? statement = some found) :
    statement.isInteraction = true := by
  unfold parsed? at hsource
  split at hsource
  · assumption
  · cases hsource

namespace TestMethod

/-- What a statement of a Then phase is parsed as. -/
inductive ThenCase (context : Context) (statement parsed : Tree) : Prop where
  | interaction (view : Ir.InteractionView) (cardinality : Cardinality)
      (hsource : Interaction.parsed? statement = some (view, cardinality))
      (hview : Ir.View.of? parsed = some (.interaction view))
      (hcount : Cardinality.resolve view.cardinality = .ok cardinality)
      (hplace : parsed.location = statement.location)
  | handedBack (hinteraction : statement.isInteraction = true)
      (hsource : Interaction.parsed? statement = none) (hparsed : parsed = statement)
      (hview : Ir.View.of? parsed = none)
  | raises (view : Ir.RaisesView) (hinteraction : statement.isInteraction = false)
      (hsource : Statement.raised? statement = some view)
      (hview : Ir.View.of? parsed = some (.raises view))
  | condition (hinteraction : statement.isInteraction = false)
      (hsource : Statement.raised? statement = none)
      (hparsed : parsed = Statement.condition context statement)

/-- Every parsed statement of a Then phase is one of these, and a node. -/
theorem thenCase_of_thenStatement {context : Context} {statement parsed : Tree}
    (hnode : statement.isNode = true) (hdone : thenStatement context statement = .ok parsed) :
    ThenCase context statement parsed ∧ parsed.isNode = true := by
  unfold thenStatement at hdone
  split at hdone
  · rename_i hinteraction
    rcases Interaction.parse_cases hdone with rfl | ⟨view, hproper, ⟨count, hcount⟩, rfl⟩
    · obtain ⟨hview, hnone⟩ := Interaction.view_eq_none hinteraction
      have hsource : Interaction.parsed? parsed = none := by
        unfold Interaction.parsed?
        rw [if_pos hinteraction, hdone]
        simp only [hnone, Option.bind_none]
      exact ⟨.handedBack hinteraction hsource rfl hview, hnode⟩
    · have hsource : Interaction.parsed? statement = some (view, count) := by
        unfold Interaction.parsed?
        rw [if_pos hinteraction, hdone]
        simp only [Ir.InteractionView.of?_build hproper, Option.bind_some, hcount]
      exact ⟨.interaction view count hsource (Ir.View.of?_interaction hproper) hcount rfl, rfl⟩
  · rename_i hinteraction
    rw [Bool.not_eq_true] at hinteraction
    unfold Statement.classify at hdone
    rw [if_pos rfl] at hdone
    obtain ⟨built, hbuilt, hdone⟩ := ok_of_bind hdone
    rcases Statement.raises?_cases hbuilt with ⟨hsource, rfl⟩ | ⟨view, hsource, hexception, rfl⟩
    · rw [← Except.ok.inj hdone]
      exact ⟨.condition hinteraction hsource rfl, Statement.isNode_condition hnode⟩
    · rw [← Except.ok.inj hdone]
      exact ⟨.raises view hinteraction hsource (Ir.View.of?_raises hexception), rfl⟩

end TestMethod

end PhasedTests
