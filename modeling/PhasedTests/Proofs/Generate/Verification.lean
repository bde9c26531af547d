import PhasedTests.Proofs.Generate.Message
import PhasedTests.Proofs.Interaction.Chain
import PhasedTests.Proofs.Source.LineIndex

/-!
# What is checked for a statement

The parser of verification phases and the generator of assertions agree on every statement. Its
form alone tells what a statement says: that the action raises an exception, an assignment, a
comparison, a negation, or else just a condition. The first form that fits counts, and what is
generated has the operands, the source text and the place of the statement. Nodes of other kinds,
among them those with the tags of parsed tests, are conditions.
-/

namespace PhasedTests

open Generate Tree.Build

/-! ## The text of a statement -/

namespace Context

/-- The characters that the source holds between the offsets of a node. -/
def HoldsText (context : Context) (t : Tree) (own : List Char) : Prop :=
  ∃ before after span, context.source = some (before ++ own ++ after) ∧ t.location = some span ∧
    span.first = byteLength before ∧ span.stop = byteLength (before ++ own)

/-- The text that is captured for a node: what the source holds for it, or its written form if
there is nothing. -/
inductive Captures (context : Context) (t : Tree) : String → Prop where
  | source {own : List Char} (hown : context.HoldsText t own) :
      Captures context t (String.ofList own)
  | written (hnone : ∀ own, ¬ context.HoldsText t own) : Captures context t t.inline

variable {context : Context} {t : Tree}

/-- The characters between the offsets of a node. -/
private def slice? (context : Context) (t : Tree) : Option (List Char) :=
  context.source.bind fun chars => t.location.bind fun span =>
    sliceBytes? chars span.first span.stop

private theorem holdsText_iff {own : List Char} :
    context.HoldsText t own ↔ slice? context t = some own := by
  simp only [slice?, HoldsText, Option.bind_eq_some_iff, sliceBytes?_eq_some_iff]
  constructor
  · rintro ⟨before, after, span, hsource, hplace, hfirst, hstop⟩
    exact ⟨_, hsource, span, hplace, before, after, rfl, hfirst, hstop⟩
  · rintro ⟨_, hsource, span, hplace, before, after, rfl, hfirst, hstop⟩
    exact ⟨before, after, span, hsource, hplace, hfirst, hstop⟩

private theorem sourceText_eq (context : Context) (t : Tree) :
    context.sourceText t = ((slice? context t).map String.ofList).getD t.inline := by
  cases hslice : slice? context t <;>
    · rw [slice?] at hslice
      simp only [sourceText, Option.bind_eq_bind, hslice]
      rfl

/-- One text is captured for a node: its source text. -/
theorem captures_iff {text : String} :
    context.Captures t text ↔ text = context.sourceText t := by
  rw [sourceText_eq]
  constructor
  · intro hcaptures
    cases hcaptures with
    | source hown => rw [holdsText_iff.mp hown, Option.map_some, Option.getD_some]
    | written hnone =>
      have hempty : slice? context t = none :=
        Option.eq_none_iff_forall_ne_some.mpr fun own hown => hnone own (holdsText_iff.mpr hown)
      rw [hempty, Option.map_none, Option.getD_none]
  · rintro rfl
    cases hslice : slice? context t with
    | some own => exact .source (holdsText_iff.mpr hslice)
    | none => exact .written fun own hown => by simp [holdsText_iff.mp hown] at hslice

end Context

/-! ## Readings -/

namespace Statement

/-- What a statement of a verification phase says. -/
inductive Reading where
  /-- The action raises the exception among these arguments of `raises`, and a variable may
  capture it. -/
  | raises (args : List Tree) (variableName : Option String)
  | assignment
  | comparison (lhs : Tree) (operator : String) (rhs : Tree)
  | negation (operand : Tree)
  | condition

/-- Forms that overlap are told apart by this order. -/
def Reading.rank : Reading → Nat
  | raises .. => 0
  | assignment => 1
  | comparison .. => 2
  | negation _ => 3
  | condition => 4

/-- The operators whose assertions name the expected operand first, with these assertions. -/
def expectedFirst : List (String × String) :=
  [("==", "assert_equal"), ("!=", "refute_equal"), ("=~", "assert_match"), ("!~", "refute_match")]

/-- The operators whose assertion names the receiver first. -/
def orderings : List String :=
  [">", "<", ">=", "<="]

/-- A call of `raises` that has no receiver. -/
def IsRaisesCall (t : Tree) (args : List Tree) : Prop :=
  ∃ tag ∈ ["send", "csend"], ∃ place, t = .node tag (.nil :: .symbol "raises" :: args) place

/-- The forms of statements. Any statement is a condition. -/
inductive Fits (raisesAllowed : Bool) : Tree → Reading → Prop where
  | raises {t : Tree} {args : List Tree} (hallowed : raisesAllowed = true)
      (hcall : IsRaisesCall t args) : Fits raisesAllowed t (.raises args none)
  | captured {name : String} {value : Tree} {args rest : List Tree} {place : Option Span}
      (hallowed : raisesAllowed = true) (hcall : IsRaisesCall value args) :
      Fits raisesAllowed (.node "lvasgn" (.symbol name :: value :: rest) place)
        (.raises args (some name))
  | assignment {tag : String} {children : List Tree} {place : Option Span}
      (htag : tag ∈ ["lvasgn", "masgn", "op_asgn", "or_asgn", "and_asgn"]) :
      Fits raisesAllowed (.node tag children place) .assignment
  | comparison {tag operator : String} {lhs rhs : Tree} {place : Option Span}
      (htag : tag ∈ ["send", "csend"]) (hlhs : lhs.isNode = true) (hrhs : rhs.isNode = true)
      (hoperator : operator ∈ expectedFirst.map Prod.fst ++ orderings) :
      Fits raisesAllowed (.node tag [lhs, .symbol operator, rhs] place)
        (.comparison lhs operator rhs)
  | negation {tag : String} {operand : Tree} {place : Option Span}
      (htag : tag ∈ ["send", "csend"]) (hoperand : operand.isNode = true) :
      Fits raisesAllowed (.node tag [operand, .symbol "!"] place) (.negation operand)
  | condition (t : Tree) : Fits raisesAllowed t .condition

/-- The reading of a statement is the first one whose form it has. -/
def Reads (raisesAllowed : Bool) (t : Tree) (reading : Reading) : Prop :=
  Fits raisesAllowed t reading ∧ ∀ other, Fits raisesAllowed t other → reading.rank ≤ other.rank

/-- What a statement with a reading is parsed as, and the assertion of the parsed statement. -/
inductive Becomes (context : Context) (t : Tree) : Reading → Except TransformError Tree → Prop where
  | raises {args : List Tree} {variableName : Option String} {exception : Tree}
      (hfirst : (Tree.nodesOf args).head? = some exception) :
      Becomes context t (.raises args variableName)
        (.ok (.node "ps_raises" (exception :: (variableName.map Tree.symbol).toList) t.location))
  | noException {args : List Tree} {variableName : Option String}
      (hnone : Tree.nodesOf args = []) :
      Becomes context t (.raises args variableName)
        (.error (.raisesCondition .noException t.location))
  | assignment (hkept : assertion t = t) : Becomes context t .assignment (.ok t)
  | expectedFirst {lhs rhs parsed : Tree} {operator method : String}
      (hmethod : (operator, method) ∈ expectedFirst) (hplace : parsed.location = t.location)
      (hassertion : assertion parsed =
        .node "send" [.nil, .symbol method, rhs, lhs] t.location) :
      Becomes context t (.comparison lhs operator rhs) (.ok parsed)
  | ordering {lhs rhs parsed : Tree} {operator : String} (hoperator : operator ∈ orderings)
      (hplace : parsed.location = t.location)
      (hassertion : assertion parsed =
        .node "send" [.nil, .symbol "assert_operator", lhs, sym operator, rhs] t.location) :
      Becomes context t (.comparison lhs operator rhs) (.ok parsed)
  | negation {operand parsed : Tree} {source : String} (hsource : context.Captures t source)
      (hplace : parsed.location = t.location)
      (hassertion : assertion parsed = assertEqual (fresh "false" []) operand
        ("Expected \"" ++ source ++ "\" to be false") t.location) :
      Becomes context t (.negation operand) (.ok parsed)
  | condition {parsed : Tree} {source : String} (hsource : context.Captures t source)
      (hplace : parsed.location = t.location)
      (hassertion : assertion parsed = assertEqual (fresh "true" []) t
        ("Expected \"" ++ source ++ "\" to be true") t.location) :
      Becomes context t .condition (.ok parsed)

/-! ## One reading for each statement -/

/-- A `raises` call is a call of `raises` without receiver. -/
theorem isRaisesCall_iff {t : Tree} {args : List Tree} :
    IsRaisesCall t args ↔ t.call? = some ⟨none, "raises", args⟩ := by
  constructor
  · rintro ⟨tag, htag, place, rfl⟩
    have hsends : (tag == "send" || tag == "csend") = true := by simpa using htag
    simp only [Tree.call?, hsends, if_true, Tree.receiver?, Option.map_some]
  · intro hcall
    obtain ⟨receiver, hchildren, hreceiver⟩ := Tree.children_of_call? hcall
    have hnil : receiver = .nil := by
      unfold Tree.receiver? at hreceiver
      split at hreceiver
      · rfl
      · cases hreceiver
      · cases hreceiver
    cases t with
    | leaf value => cases hcall
    | node tag children place =>
      obtain rfl : children = _ := hchildren
      have htag : tag = "send" ∨ tag = "csend" := Tree.tag_of_call? hcall
      exact ⟨tag, by simpa using htag, place, by rw [hnil]⟩

/-- An assignment of a node to a variable. -/
private theorem eq_of_lvasgn {t value : Tree} {name : String} (htag : t.hasTag "lvasgn" = true)
    (hname : t.symbolAt? 0 = some name) (hvalue : t.nodeAt? 1 = some value) :
    ∃ rest place, t = .node "lvasgn" (.symbol name :: value :: rest) place := by
  cases t with
  | leaf value => cases htag
  | node tag children place =>
    obtain rfl : tag = "lvasgn" := by simpa [Tree.hasTag, Tree.isNode, Tree.tag] using htag
    rcases children with _ | ⟨first, _ | ⟨second, rest⟩⟩
    · cases hname
    · cases hvalue
    · obtain ⟨hsecond, -⟩ := Option.filter_eq_some_iff.mp hvalue
      obtain rfl : second = value := Option.some.inj hsecond
      have hfirst : first = .symbol name := by
        change first.symbol? = some name at hname
        unfold Tree.symbol? at hname
        split at hname
        · rw [Option.some.inj hname]
        · cases hname
      exact ⟨rest, place, by rw [hfirst]⟩

/-- The expected exceptions that a statement has the form of are those that are found in it. -/
theorem fits_raises_iff {t : Tree} {args : List Tree} {variableName : Option String} :
    Fits true t (.raises args variableName) ↔ raisesCall? t = some (args, variableName) := by
  constructor
  · intro hfits
    cases hfits with
    | raises _ hcall =>
      have hassigned : assigned t = some (t, none) := by
        obtain ⟨tag, htag, place, rfl⟩ := hcall
        unfold assigned
        rw [if_neg]
        simp only [Tree.hasTag, Tree.isNode, Tree.tag, Bool.true_and, beq_iff_eq]
        rintro rfl
        exact absurd htag (by decide)
      unfold raisesCall?
      simp only [hassigned, isRaisesCall_iff.mp hcall]
    | @captured name value _ rest place _ hcall =>
      have hassigned : assigned (.node "lvasgn" (.symbol name :: value :: rest) place) =
          some (value, some name) := by
        obtain ⟨tag, -, inner, rfl⟩ := hcall
        rfl
      unfold raisesCall?
      simp only [hassigned, isRaisesCall_iff.mp hcall]
  · intro hraises
    unfold raisesCall? at hraises
    split at hraises
    · cases hraises
    · rename_i value name hassigned
      split at hraises
      · rename_i hcall
        obtain ⟨rfl, rfl⟩ := Prod.mk.inj (Option.some.inj hraises)
        have hcall := isRaisesCall_iff.mpr hcall
        unfold assigned at hassigned
        split at hassigned
        · rename_i htag
          split at hassigned
          · rename_i hname hvalue
            obtain ⟨rfl, rfl⟩ := Prod.mk.inj (Option.some.inj hassigned)
            obtain ⟨rest, place, rfl⟩ := eq_of_lvasgn htag hname hvalue
            exact .captured rfl hcall
          · cases hassigned
        · obtain ⟨rfl, rfl⟩ := Prod.mk.inj (Option.some.inj hassigned)
          exact .raises rfl hcall
      · cases hraises

private theorem fits_assignment_iff {raisesAllowed : Bool} {t : Tree} :
    Fits raisesAllowed t .assignment ↔ t.tagIn assignmentTags = true := by
  constructor
  · intro hfits
    cases hfits with
    | assignment htag => simpa [Tree.tagIn, Tree.isNode, Tree.tag, assignmentTags] using htag
  · intro htag
    cases t with
    | leaf value => cases htag
    | node tag children place =>
      exact .assignment (by simpa [Tree.tagIn, Tree.isNode, Tree.tag, assignmentTags] using htag)

private theorem fits_comparison_iff {raisesAllowed : Bool} {t lhs rhs : Tree} {operator : String} :
    Fits raisesAllowed t (.comparison lhs operator rhs) ↔
      comparison? t = some ⟨lhs, operator, rhs⟩ := by
  constructor
  · intro hfits
    cases hfits with
    | comparison htag hlhs hrhs hoperator =>
      have hknown : comparisonOperators.contains operator = true :=
        List.contains_iff_mem.mpr hoperator
      unfold comparison?
      rw [Interaction.binaryCall?_on htag hlhs hrhs]
      simp only [hknown, if_true]
  · intro hcomparison
    unfold comparison? at hcomparison
    split at hcomparison
    · rename_i hcall
      split at hcomparison
      · rename_i hknown
        obtain ⟨rfl, rfl, rfl⟩ : _ = lhs ∧ _ = operator ∧ _ = rhs := by simpa using hcomparison
        obtain ⟨hlhs, hrhs⟩ := Tree.isNode_of_binaryCall? hcall
        obtain ⟨tag, place, htag, rfl⟩ := Tree.eq_of_binaryCall? hcall
        exact .comparison htag hlhs hrhs (List.contains_iff_mem.mp hknown)
      · cases hcomparison
    · cases hcomparison

private theorem fits_negation_iff {raisesAllowed : Bool} {t operand : Tree} :
    Fits raisesAllowed t (.negation operand) ↔ negated? t = some operand := by
  constructor
  · intro hfits
    cases hfits with
    | negation htag hoperand =>
      simp only [negated?, Interaction.call?_on htag hoperand]
  · intro hnegated
    unfold negated? at hnegated
    split at hnegated
    · rename_i hcall
      obtain rfl := Option.some.inj hnegated
      obtain ⟨receiver, hchildren, hreceiver⟩ := Tree.children_of_call? hcall
      obtain rfl := Tree.eq_of_receiver? hreceiver
      cases t with
      | leaf value => cases hcall
      | node tag children place =>
        obtain rfl : children = _ := hchildren
        have htag : tag = "send" ∨ tag = "csend" := Tree.tag_of_call? hcall
        exact .negation (by simpa using htag) (Tree.isNode_of_call? hcall)
    · cases hnegated

variable {raisesAllowed : Bool} {t : Tree}

/-- Only where exceptions may be expected are there statements that expect one. -/
theorem Fits.raisesCall? {args : List Tree} {variableName : Option String}
    (hfits : Fits raisesAllowed t (.raises args variableName)) :
    raisesAllowed = true ∧ Statement.raisesCall? t = some (args, variableName) := by
  have hallowed : raisesAllowed = true := by
    cases hfits <;> assumption
  rw [hallowed] at hfits
  exact ⟨hallowed, fits_raises_iff.mp hfits⟩

/-- A form is found in a statement in one way only. -/
theorem Fits.eq_of_rank {first second : Reading} (hfirst : Fits raisesAllowed t first)
    (hsecond : Fits raisesAllowed t second) (hrank : first.rank = second.rank) :
    first = second := by
  cases first with
  | raises args variableName =>
    cases second with
    | raises args' variableName' =>
      have hsame := hfirst.raisesCall?.2.symm.trans hsecond.raisesCall?.2
      obtain ⟨rfl, rfl⟩ := Prod.mk.inj (Option.some.inj hsame)
      rfl
    | _ => cases hrank
  | assignment =>
    cases second with
    | assignment => rfl
    | _ => cases hrank
  | comparison lhs operator rhs =>
    cases second with
    | comparison lhs' operator' rhs' =>
      have hsame := (fits_comparison_iff.mp hfirst).symm.trans (fits_comparison_iff.mp hsecond)
      obtain ⟨rfl, rfl, rfl⟩ := Ir.BinaryView.mk.inj (Option.some.inj hsame)
      rfl
    | _ => cases hrank
  | negation operand =>
    cases second with
    | negation operand' =>
      have hsame := (fits_negation_iff.mp hfirst).symm.trans (fits_negation_iff.mp hsecond)
      rw [Option.some.inj hsame]
    | _ => cases hrank
  | condition =>
    cases second with
    | condition => rfl
    | _ => cases hrank

/-- A statement has at most one reading. -/
theorem Reads.unique {first second : Reading} (hfirst : Reads raisesAllowed t first)
    (hsecond : Reads raisesAllowed t second) : first = second :=
  hfirst.1.eq_of_rank hsecond.1
    (Nat.le_antisymm (hfirst.2 _ hsecond.1) (hsecond.2 _ hfirst.1))

/-! ## What becomes of a statement -/

/-- A statement that expects an exception is parsed as the expectation of its first argument. -/
private theorem becomes_raises (context : Context) {args : List Tree} {variableName : Option String}
    (hfits : Fits raisesAllowed t (.raises args variableName)) :
    Becomes context t (.raises args variableName) (classify context raisesAllowed t) := by
  obtain ⟨rfl, hcall⟩ := hfits.raisesCall?
  cases hnodes : Tree.nodesOf args with
  | nil =>
    have hraises : raises? t = .error (.raisesCondition .noException t.location) := by
      simp only [raises?, hcall, hnodes]
    have hclassify : classify context true t =
        .error (.raisesCondition .noException t.location) := by
      rw [classify, if_pos rfl, hraises]
      rfl
    rw [hclassify]
    exact .noException hnodes
  | cons exception others =>
    have hraises : raises? t =
        .ok (some ((Ir.RaisesView.build ⟨exception, variableName⟩).located t.location)) := by
      simp only [raises?, hcall, hnodes]
    have hclassify : classify context true t =
        .ok ((Ir.RaisesView.build ⟨exception, variableName⟩).located t.location) := by
      rw [classify, if_pos rfl, hraises]
      rfl
    rw [hclassify]
    exact .raises (by rw [hnodes, List.head?_cons])

/-- Any other statement is parsed as a condition. -/
theorem classify_eq_condition (context : Context)
    (hraises : ∀ args variableName, ¬ Fits raisesAllowed t (.raises args variableName)) :
    classify context raisesAllowed t = .ok (condition context t) := by
  cases raisesAllowed with
  | false => rfl
  | true =>
    have hnone : raisesCall? t = none := by
      cases hcall : raisesCall? t with
      | none => rfl
      | some found => exact absurd (fits_raises_iff.mpr hcall) (hraises found.1 found.2)
    have hraises : raises? t = .ok none := by
      simp only [raises?, hnone]
    rw [classify, if_pos rfl, hraises]
    rfl

/-- An assignment stays as it is. -/
private theorem becomes_assignment (context : Context)
    (hassigns : t.tagIn assignmentTags = true) :
    Becomes context t .assignment (.ok (condition context t)) := by
  have hcondition : condition context t = t := by
    rw [condition, if_pos hassigns]
  have hview : Ir.View.of? t = none := by
    have hhost : ∀ tag ∈ assignmentTags, tag ∉ Ir.reservedTags := by decide
    unfold Tree.tagIn at hassigns
    rw [Bool.and_eq_true, List.contains_iff_mem] at hassigns
    exact Ir.View.of?_eq_none (hhost _ hassigns.2)
  rw [hcondition]
  exact .assignment (by rw [assertion, hview])

private theorem comparison_of_expectedFirst {lhs rhs : Tree} {operator method : String}
    {place : Option Span} (hmethod : (operator, method) ∈ expectedFirst) :
    (comparison ⟨lhs, operator, rhs⟩).located place =
      .node "send" [.nil, .symbol method, rhs, lhs] place := by
  simp only [expectedFirst, List.mem_cons, Prod.mk.injEq, List.not_mem_nil, or_false] at hmethod
  rcases hmethod with ⟨rfl, rfl⟩ | ⟨rfl, rfl⟩ | ⟨rfl, rfl⟩ | ⟨rfl, rfl⟩ <;> rfl

private theorem comparison_of_ordering {lhs rhs : Tree} {operator : String} {place : Option Span}
    (hordering : operator ∈ orderings) :
    (comparison ⟨lhs, operator, rhs⟩).located place =
      .node "send" [.nil, .symbol "assert_operator", lhs, sym operator, rhs] place := by
  simp only [orderings, List.mem_cons, List.not_mem_nil, or_false] at hordering
  rcases hordering with rfl | rfl | rfl | rfl <;> rfl

/-- A comparison is checked by the assertion of its operator. -/
private theorem becomes_comparison (context : Context) {lhs rhs : Tree} {operator : String}
    (hassigns : t.tagIn assignmentTags = false)
    (hfits : Fits raisesAllowed t (.comparison lhs operator rhs)) :
    Becomes context t (.comparison lhs operator rhs) (.ok (condition context t)) := by
  have hcomparison := fits_comparison_iff.mp hfits
  have hcondition : condition context t =
      (Ir.BinaryView.build ⟨lhs, operator, rhs⟩).located t.location := by
    unfold condition
    rw [hassigns, hcomparison]
    rfl
  cases hfits with
  | @comparison tag _ _ _ place htag hlhs hrhs hoperator =>
    have hassertion : assertion (condition context (.node tag [lhs, .symbol operator, rhs] place)) =
        (comparison ⟨lhs, operator, rhs⟩).located place := by
      rw [hcondition, assertion, Ir.View.of?_binary hlhs hrhs]
      rfl
    have hplace : (condition context (.node tag [lhs, .symbol operator, rhs] place)).location =
        place := by
      rw [hcondition]
      rfl
    rcases List.mem_append.mp hoperator with hexpected | hordering
    · obtain ⟨⟨_, method⟩, hmethod, rfl⟩ := List.mem_map.mp hexpected
      exact .expectedFirst hmethod hplace
        (hassertion.trans (comparison_of_expectedFirst hmethod))
    · exact .ordering hordering hplace (hassertion.trans (comparison_of_ordering hordering))

/-- A negation says that its operand is false, and any other condition that it is true. -/
private theorem becomes_generic (context : Context) (hnode : t.isNode = true)
    (hassigns : t.tagIn assignmentTags = false) (hcompares : comparison? t = none) :
    (∀ operand, negated? t = some operand →
      Becomes context t (.negation operand) (.ok (condition context t))) ∧
    (negated? t = none → Becomes context t .condition (.ok (condition context t))) := by
  have hsource : context.Captures t (context.sourceText t) := Context.captures_iff.mpr rfl
  have hassertion := assertion_condition context hnode hassigns hcompares
  have hplace : (condition context t).location = t.location := by
    unfold condition
    rw [hassigns, hcompares]
    rfl
  constructor
  · intro operand hnegated
    have hword : "\" to be " ++ "false" = "\" to be false" := by decide
    refine .negation hsource hplace ?_
    rw [hassertion, truth]
    simp only [hnegated, String.append_assoc, hword]
    rfl
  · intro hnegated
    have hword : "\" to be " ++ "true" = "\" to be true" := by decide
    refine .condition hsource hplace ?_
    rw [hassertion, truth]
    simp only [hnegated, String.append_assoc, hword]
    rfl

/-- Every statement has a reading, and it is what the statement is parsed and checked by. -/
theorem exists_reads (context : Context) (raisesAllowed : Bool) (hnode : t.isNode = true) :
    ∃ reading, Reads raisesAllowed t reading ∧
      Becomes context t reading (classify context raisesAllowed t) := by
  by_cases hraises : ∃ args variableName, Fits raisesAllowed t (.raises args variableName)
  · obtain ⟨args, variableName, hfits⟩ := hraises
    exact ⟨_, ⟨hfits, fun _ _ => Nat.zero_le _⟩, becomes_raises context hfits⟩
  have hraised : ∀ args variableName, ¬ Fits raisesAllowed t (.raises args variableName) :=
    fun args variableName hfits => hraises ⟨args, variableName, hfits⟩
  rw [classify_eq_condition context hraised]
  cases hassigns : t.tagIn assignmentTags with
  | true =>
    refine ⟨_, ⟨fits_assignment_iff.mpr hassigns, fun other hother => ?_⟩,
      becomes_assignment context hassigns⟩
    cases other with
    | raises args variableName => exact absurd hother (hraised args variableName)
    | _ => simp [Reading.rank]
  | false =>
    have hassigned : ¬ Fits raisesAllowed t .assignment := by
      rw [fits_assignment_iff, hassigns]
      exact Bool.false_ne_true
    cases hcompares : comparison? t with
    | some view =>
      have hfits : Fits raisesAllowed t (.comparison view.lhs view.operator view.rhs) :=
        fits_comparison_iff.mpr hcompares
      refine ⟨_, ⟨hfits, fun other hother => ?_⟩, becomes_comparison context hassigns hfits⟩
      cases other with
      | raises args variableName => exact absurd hother (hraised args variableName)
      | assignment => exact absurd hother hassigned
      | _ => simp [Reading.rank]
    | none =>
      have hcompared (lhs operator rhs) :
          ¬ Fits raisesAllowed t (.comparison lhs operator rhs) := by
        rw [fits_comparison_iff, hcompares]
        exact nofun
      obtain ⟨hnegation, hcondition⟩ := becomes_generic context hnode hassigns hcompares
      cases hnegated : negated? t with
      | some operand =>
        refine ⟨_, ⟨fits_negation_iff.mpr hnegated, fun other hother => ?_⟩,
          hnegation operand hnegated⟩
        cases other with
        | raises args variableName => exact absurd hother (hraised args variableName)
        | assignment => exact absurd hother hassigned
        | comparison lhs operator rhs => exact absurd hother (hcompared lhs operator rhs)
        | _ => simp [Reading.rank]
      | none =>
        refine ⟨_, ⟨.condition t, fun other hother => ?_⟩, hcondition hnegated⟩
        cases other with
        | raises args variableName => exact absurd hother (hraised args variableName)
        | assignment => exact absurd hother hassigned
        | comparison lhs operator rhs => exact absurd hother (hcompared lhs operator rhs)
        | negation operand =>
          rw [fits_negation_iff, hnegated] at hother
          cases hother
        | condition => exact Nat.le_refl _

/-- A reserved tag gives a statement no other form. -/
private theorem reads_of_reserved (raisesAllowed : Bool)
    (hreserved : "ps_".toList <+: t.tag.toList) : Reads raisesAllowed t .condition := by
  have hother : t.tag ∉ ["send", "csend", "lvasgn", "masgn", "op_asgn", "or_asgn", "and_asgn"] := by
    have hhost : ∀ tag ∈ ["send", "csend", "lvasgn", "masgn", "op_asgn", "or_asgn", "and_asgn"],
        ¬ "ps_".toList <+: tag.toList := by decide
    exact fun hmem => hhost _ hmem hreserved
  refine ⟨.condition t, fun other hfits => ?_⟩
  cases hfits with
  | raises _ hcall =>
    obtain ⟨tag, htag, place, rfl⟩ := hcall
    exact absurd (List.mem_append_left _ htag) hother
  | captured => exact absurd (show "lvasgn" ∈ _ by decide) hother
  | assignment htag => exact absurd (List.mem_append_right ["send", "csend"] htag) hother
  | comparison htag => exact absurd (List.mem_append_left _ htag) hother
  | negation htag => exact absurd (List.mem_append_left _ htag) hother
  | condition => exact Nat.le_refl _

/-- A statement of an Expect phase, where no exceptions are expected, and a statement of a Then
phase that is no interaction has exactly one reading. It is parsed as what it says, at its own
place, and the assertion of the parsed statement has the operands of this reading, the text that is
captured for the statement, and its place. A statement with a reserved tag is a condition like any
other. -/
theorem becomes_of_statement (context : Context) {t : Tree} (hnode : t.isNode = true) :
    ((∃! reading, Reads false t reading) ∧
      ∀ reading, Reads false t reading → Becomes context t reading (classify context false t)) ∧
    (t.isInteraction = false →
      (∃! reading, Reads true t reading) ∧
        ∀ reading, Reads true t reading →
          Becomes context t reading (TestMethod.thenStatement context t)) ∧
    ∀ raisesAllowed, "ps_".toList <+: t.tag.toList → Reads raisesAllowed t .condition := by
  have hread (raisesAllowed : Bool) : (∃! reading, Reads raisesAllowed t reading) ∧
      ∀ reading, Reads raisesAllowed t reading →
        Becomes context t reading (classify context raisesAllowed t) := by
    obtain ⟨reading, hreads, hbecomes⟩ := exists_reads context raisesAllowed hnode
    refine ⟨⟨reading, hreads, fun other hother => hother.unique hreads⟩, fun other hother => ?_⟩
    rwa [hother.unique hreads]
  refine ⟨hread false, fun hinteraction => ?_, fun _ hreserved => reads_of_reserved _ hreserved⟩
  have hthen : TestMethod.thenStatement context t = classify context true t := by
    rw [TestMethod.thenStatement, if_neg (by rw [hinteraction]; exact Bool.false_ne_true)]
  rw [hthen]
  exact hread true

/-- A captured exception in a Then phase, which in an Expect phase is an assignment, and a host node
with the tag of an expected exception, which is checked as the source has it. -/
theorem becomes_of_statement_raises :
    let exception := constant none "KeyError"
    let captured := lvasgn "e" (call none "raises" [exception])
    let host := Tree.node "ps_raises" [exception] (some ⟨4, 8, ⟨1, 5⟩, ⟨1, 8⟩⟩)
    let context := Context.ofText "a = true"
    (captured.isNode = true ∧ captured.isInteraction = false ∧
      TestMethod.thenStatement context captured =
        .ok (.node "ps_raises" [exception, .symbol "e"] none) ∧
      classify context false captured = .ok captured) ∧
    host.isNode = true ∧ ∃ parsed, classify context false host = .ok parsed ∧
      assertion parsed =
        assertEqual (fresh "true" []) host "Expected \"true\" to be true" host.location := by
  intro exception captured host context
  have hraises : Reads true captured (.raises [exception] (some "e")) :=
    ⟨.captured rfl ⟨"send", by decide, none, rfl⟩, fun _ _ => Nat.zero_le _⟩
  have hassigns : Reads false captured .assignment := by
    refine ⟨.assignment (by decide), fun other hfits => ?_⟩
    cases other with
    | raises => exact absurd hfits.raisesCall?.1 Bool.false_ne_true
    | _ => simp [Reading.rank]
  obtain ⟨⟨-, hexpect⟩, hthen, -⟩ := @becomes_of_statement context captured rfl
  have hcaptured := (hthen (by decide)).2 _ hraises
  have hassigned := hexpect _ hassigns
  refine ⟨⟨rfl, by decide, ?_, ?_⟩, rfl, ?_⟩
  · generalize TestMethod.thenStatement context captured = result at hcaptured
    cases hcaptured with
    | raises hfirst =>
      obtain rfl := Option.some.inj hfirst
      rfl
    | noException hnone => cases hnone
  · generalize classify context false captured = result at hassigned
    cases hassigned
    rfl
  · obtain ⟨⟨-, hexpect⟩, -, hreserved⟩ := @becomes_of_statement context host rfl
    have hchecked := hexpect .condition (hreserved false (by decide))
    have hsource : context.Captures host "true" :=
      .source ⟨"a = ".toList, [], _, rfl, rfl, by decide, by decide⟩
    generalize classify context false host = result at hchecked
    cases hchecked with
    | condition hother _ hassertion =>
      rw [Context.captures_iff.mp hother, ← Context.captures_iff.mp hsource] at hassertion
      exact ⟨_, rfl, hassertion⟩

end Statement

end PhasedTests
