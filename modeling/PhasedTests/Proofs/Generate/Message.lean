import PhasedTests.Proofs.Generate.Body

/-!
# What assertions say

The source text of a statement ends up in the message of the assertion that it must hold, and
nowhere else. Bodies that are generated for two contexts are therefore the same up to the messages
of such assertions, and they stay so when locals are read in them.
-/

namespace PhasedTests.Generate

open Tree.Build

/-- The assertion that two values are equal, with what it says if they are not. -/
def assertEqual (expected actual : Tree) (said : String) (place : Option Span) : Tree :=
  (call none "assert_equal" [expected, actual, str said]).located place

/-- The statement is a condition that must hold: it stands in an Expect phase, or in a Then phase
where it is no interaction and expects no exception, and it neither assigns nor compares. -/
structure IsGeneric (statements : List Tree) (s : Tree) : Prop where
  verifies : s ∈ statementsIn .expect statements ∨
    s ∈ statementsIn .then statements ∧ s.isInteraction = false ∧ Statement.raised? s = none
  assigns : s.tagIn Statement.assignmentTags = false
  compares : Statement.comparison? s = none

/-- A statement as it stands in the generated method, where these names are locals beside those of
the data row. -/
def asLocals (names : List String) (t : Tree) : Tree :=
  callsToLocals names (callsToLocals [testIndex, lineNumber] t)

/-- The assertion of a condition in the generated method. -/
def asserted (context : Context) (names : List String) (s : Tree) : Tree :=
  asLocals names (assertion (Statement.condition context s))

/-- `Resaid made t u` says that the trees are the same, spans included, up to what assertions in
them say, where `made` holds of any two assertions that say different things. -/
inductive Resaid (made : Tree → Tree → Prop) : Tree → Tree → Prop where
  | same (t : Tree) : Resaid made t t
  | node {tag : String} {children others : List Tree} {location : Option Span}
      (hchildren : List.Forall₂ (Resaid made) children others) :
      Resaid made (.node tag children location) (.node tag others location)
  | message {expected actual : Tree} {said other : String} {place : Option Span}
      (hmade : made (assertEqual expected actual said place)
        (assertEqual expected actual other place)) :
      Resaid made (assertEqual expected actual said place) (assertEqual expected actual other place)

namespace Resaid

variable {made : Tree → Tree → Prop}

/-- The trees of a list are the same as themselves. -/
theorem sameAll (trees : List Tree) : List.Forall₂ (Resaid made) trees trees :=
  List.forall₂_same.mpr fun t _ => .same t

/-- Bodies whose statements differ in messages differ in messages. -/
theorem cleanedUp {statements others : List Tree} (hstatements : List.Forall₂ (Resaid made)
    statements others) (cleanup : List Tree) :
    Resaid made (Generate.cleanedUp statements cleanup) (Generate.cleanedUp others cleanup) := by
  unfold Generate.cleanedUp
  split
  · exact .node hstatements
  · exact .node (.cons (.node (.cons (.node hstatements) (.cons (.same _) .nil))) .nil)

end Resaid

/-! ## The assertion of a condition -/

/-- A condition that neither assigns nor compares must hold. -/
theorem assertion_condition {s : Tree} (context : Context) (hnode : s.isNode = true)
    (hassigns : s.tagIn Statement.assignmentTags = false)
    (hcompares : Statement.comparison? s = none) :
    assertion (Statement.condition context s) =
      (truth ⟨s, context.sourceText s⟩).located s.location := by
  have hcondition : Statement.condition context s =
      (Ir.StatementView.build ⟨s, context.sourceText s⟩).located s.location := by
    unfold Statement.condition
    rw [hassigns, hcompares]
    rfl
  unfold assertion
  rw [hcondition, @Ir.View.of?_statement s.location ⟨s, context.sourceText s⟩ hnode]
  rfl

/-- Only what it says depends on the context. -/
theorem assertion_of_generic {s : Tree} (hnode : s.isNode = true)
    (hassigns : s.tagIn Statement.assignmentTags = false)
    (hcompares : Statement.comparison? s = none) :
    ∃ expected actual word, ∀ context, assertion (Statement.condition context s) =
      assertEqual expected actual ("Expected \"" ++ context.sourceText s ++ "\" to be " ++ word)
        s.location := by
  have hassertion (context : Context) := assertion_condition context hnode hassigns hcompares
  cases hnegated : negated? s with
  | some operand =>
    refine ⟨fresh "false" [], operand, "false", fun context => ?_⟩
    rw [hassertion, truth]
    simp only [hnegated]
    rfl
  | none =>
    refine ⟨fresh "true" [], s, "true", fun context => ?_⟩
    rw [hassertion, truth]
    simp only [hnegated]
    rfl

/-- Reading locals does not change what an assertion says. -/
theorem callsToLocals_assertEqual (names : List String) (expected actual : Tree) (said : String)
    (place : Option Span) : callsToLocals names (assertEqual expected actual said place) =
      assertEqual (callsToLocals names expected) (callsToLocals names actual) said place := by
  change callsToLocals names (.node "send" [.nil, .symbol "assert_equal", expected, actual,
    .node "str" [.text said] none] place) = _
  have hbare : (Tree.node "send" [.nil, .symbol "assert_equal", expected, actual,
    .node "str" [.text said] none] place).bareCall? = none := rfl
  have hstr : callsToLocals names (.node "str" [.text said] none) = str said := by
    rw [callsToLocals_node names (by decide)]
    rfl
  rw [callsToLocals, hbare, callsToLocalsAll_eq_map]
  simp only [List.map_cons, List.map_nil, hstr]
  rfl

variable {made : Tree → Tree → Prop} {first second : Context} {statements : List Tree}

/-- Two assertions of one condition differ in what they say. -/
theorem Resaid.asserted {s : Tree} (names : List String) (hnode : s.isNode = true)
    (hgeneric : IsGeneric statements s)
    (hmade : made (asserted first names s) (asserted second names s)) :
    Resaid made (Generate.asserted first names s) (Generate.asserted second names s) := by
  obtain ⟨expected, actual, word, hassertion⟩ :=
    assertion_of_generic hnode hgeneric.assigns hgeneric.compares
  unfold Generate.asserted asLocals at hmade ⊢
  rw [hassertion, hassertion] at hmade ⊢
  simp only [callsToLocals_assertEqual] at hmade ⊢
  exact .message hmade

/-! ## The statements of a body -/

/-- The conditions of two contexts are the same, or the statement is generic. -/
theorem condition_cases (first second : Context) (s : Tree) :
    Statement.condition first s = Statement.condition second s ∨
      s.tagIn Statement.assignmentTags = false ∧ Statement.comparison? s = none := by
  unfold Statement.condition
  split
  · exact .inl rfl
  · rename_i hassigns
    split
    · exact .inl rfl
    · rename_i hcompares
      exact .inr ⟨Bool.not_eq_true _ ▸ hassigns, hcompares⟩

variable {names : List String}

/-- The assertions of a condition in a verification phase differ at most in what they say. -/
private theorem resaid_condition (hnodes : Tree.AllNodes statements)
    (hmade : ∀ s, IsGeneric statements s → made (asserted first names s) (asserted second names s))
    {s : Tree} (hverifies : s ∈ statementsIn .expect statements ∨
      s ∈ statementsIn .then statements ∧ s.isInteraction = false ∧ Statement.raised? s = none) :
    Resaid made (asserted first names s) (asserted second names s) := by
  have hnode : s.isNode = true :=
    hnodes s (hverifies.elim mem_of_mem_statementsIn fun hthen => mem_of_mem_statementsIn hthen.1).1
  rcases condition_cases first second s with hsame | ⟨hassigns, hcompares⟩
  · unfold asserted
    rw [hsame]
    exact .same _
  · have hgeneric : IsGeneric statements s := ⟨hverifies, hassigns, hcompares⟩
    exact .asserted names hnode hgeneric (hmade s hgeneric)

/-- What the statements of a Then phase leave behind the action differs at most in what assertions
say. -/
private theorem resaid_checks (hnodes : Tree.AllNodes statements)
    (hmade : ∀ s, IsGeneric statements s → made (asserted first names s) (asserted second names s))
    {entry : Tree × Nat} (hentry : entry.1 ∈ statementsIn .then statements) :
    List.Forall₂ (Resaid made) ((checksOf first entry).map (asLocals names))
      ((checksOf second entry).map (asLocals names)) := by
  unfold checksOf
  split
  · exact Resaid.sameAll _
  · split
    · exact Resaid.sameAll _
    · rename_i hinteraction
      split
      · exact .nil
      · rename_i hraised
        refine .cons (resaid_condition hnodes hmade (.inr ⟨hentry, ?_, ?_⟩)) .nil
        · exact Bool.not_eq_true _ ▸ hinteraction
        · exact Option.not_isSome_iff_eq_none.mp hraised

/-- Bodies that are generated for two contexts are the same up to what the assertions of generic
statements say. -/
theorem resaid_body (hnodes : Tree.AllNodes statements)
    (hmade : ∀ s, IsGeneric statements s →
      made (asserted first names s) (asserted second names s)) :
    Resaid made (callsToLocals names (bodyOf first statements))
      (callsToLocals names (bodyOf second statements)) := by
  simp only [bodyOf, callsToLocals_cleanedUp, List.map_map]
  refine .cleanedUp ?_ _
  change List.Forall₂ _ ((bodyStatements first statements).map (asLocals names))
    ((bodyStatements second statements).map (asLocals names))
  unfold bodyStatements
  simp only [List.map_append, List.map_flatMap, List.map_map]
  refine List.rel_append (List.rel_append (Resaid.sameAll _) ?_) ?_
  · refine List.rel_flatMap (R := fun a b => a = b ∧ a ∈ numbered 0 (statementsIn .then statements))
      (List.forall₂_same.mpr fun entry hentry => ⟨rfl, hentry⟩) ?_
    rintro entry _ ⟨rfl, hentry⟩
    exact resaid_checks hnodes hmade (fst_mem_of_mem_numbered hentry)
  · rw [List.forall₂_map_left_iff, List.forall₂_map_right_iff, List.forall₂_same]
    exact fun s hs => resaid_condition hnodes hmade (.inl hs)

end PhasedTests.Generate
