import Mathlib.Data.List.Pairwise
import PhasedTests.Proofs.Generate.Composition
import PhasedTests.Proofs.Generate.Demand
import PhasedTests.Proofs.Generate.Method

/-!
# Reassembled tests

Where the statements of a parsed test stand in the generated one, and what becomes of each of them.
The generated nodes are written out here, whatever they are generated by. The statements of a test
determine them, and they are the body that is generated.
-/

namespace PhasedTests

/-! ## Assertions and expected exceptions -/

namespace Statement

open Generate (assertion)

/-- `Asserts context t reading check` says that `check` is what a statement with this reading is
checked by, at the place of the statement. -/
inductive Asserts (context : Context) (t : Tree) : Reading → Tree → Prop where
  | assignment : Asserts context t .assignment t
  | expectedFirst {lhs rhs : Tree} {operator method : String}
      (hmethod : (operator, method) ∈ expectedFirst) :
      Asserts context t (.comparison lhs operator rhs)
        (.node "send" [.nil, .symbol method, rhs, lhs] t.location)
  | ordering {lhs rhs : Tree} {operator : String} (hoperator : operator ∈ orderings) :
      Asserts context t (.comparison lhs operator rhs)
        (.node "send" [.nil, .symbol "assert_operator", lhs,
          .node "sym" [.symbol operator] none, rhs] t.location)
  | negation {operand : Tree} {source : String} (hsource : context.Captures t source) :
      Asserts context t (.negation operand)
        (.node "send" [.nil, .symbol "assert_equal", .node "false" [] none, operand,
          .node "str" [.text ("Expected \"" ++ source ++ "\" to be false")] none] t.location)
  | condition {source : String} (hsource : context.Captures t source) :
      Asserts context t .condition
        (.node "send" [.nil, .symbol "assert_equal", .node "true" [] none, t,
          .node "str" [.text ("Expected \"" ++ source ++ "\" to be true")] none] t.location)

/-- The statement says that the action raises an exception. -/
def ExpectsException (t : Tree) : Prop :=
  ∃ args variableName, Fits true t (.raises args variableName)

private theorem expectsException_iff {t : Tree} :
    ExpectsException t ↔ (raisesCall? t).isSome = true := by
  unfold ExpectsException
  rw [Option.isSome_iff_exists, Prod.exists]
  simp only [fits_raises_iff]

instance : DecidablePred ExpectsException :=
  fun _ => decidable_of_iff _ expectsException_iff.symm

/-- What a parsed statement is checked by, read off its assertion. -/
private theorem asserts_of_becomes {context : Context} {t parsed : Tree} {reading : Reading}
    (hraises : ∀ args variableName, reading ≠ .raises args variableName)
    (hbecomes : Becomes context t reading (.ok parsed)) :
    Asserts context t reading (assertion parsed) := by
  cases hbecomes with
  | raises => exact absurd rfl (hraises _ _)
  | assignment hkept =>
    rw [hkept]
    exact .assignment
  | expectedFirst hmethod _ hassertion =>
    rw [hassertion]
    exact .expectedFirst hmethod
  | ordering hoperator _ hassertion =>
    rw [hassertion]
    exact .ordering hoperator
  | negation hsource _ hassertion =>
    rw [hassertion]
    exact .negation hsource
  | condition hsource _ hassertion =>
    rw [hassertion]
    exact .condition hsource

/-- A statement with a reading is checked by one node. -/
private theorem Asserts.unique {context : Context} {t first second : Tree} {reading : Reading}
    (hfirst : Asserts context t reading first) (hsecond : Asserts context t reading second) :
    first = second := by
  have horder : ∀ entry ∈ Statement.expectedFirst, entry.1 ∉ orderings := by decide
  cases hfirst with
  | assignment => cases hsecond; rfl
  | expectedFirst hmethod =>
    cases hsecond with
    | expectedFirst hother =>
      have hsame : ∀ entry ∈ Statement.expectedFirst, ∀ other ∈ Statement.expectedFirst,
          entry.1 = other.1 → entry.2 = other.2 := by decide
      obtain rfl := hsame _ hmethod _ hother rfl
      rfl
    | ordering hoperator => exact absurd hoperator (horder _ hmethod)
  | ordering hoperator =>
    cases hsecond with
    | expectedFirst hmethod => exact absurd hoperator (horder _ hmethod)
    | ordering => rfl
  | negation hsource =>
    cases hsecond with
    | negation hother =>
      rw [Context.captures_iff.mp hsource, Context.captures_iff.mp hother]
  | condition hsource =>
    cases hsecond with
    | condition hother =>
      rw [Context.captures_iff.mp hsource, Context.captures_iff.mp hother]

/-- A statement that expects no exception is checked by the assertion of its condition, and by
nothing else. -/
theorem asserts_iff {context : Context} {raisesAllowed : Bool} {t check : Tree}
    (hnode : t.isNode = true)
    (hraises : ∀ args variableName, ¬ Fits raisesAllowed t (.raises args variableName)) :
    (∃ reading, Reads raisesAllowed t reading ∧ Asserts context t reading check) ↔
      check = assertion (condition context t) := by
  obtain ⟨reading, hreads, hbecomes⟩ := exists_reads context raisesAllowed hnode
  rw [classify_eq_condition context hraises] at hbecomes
  have hasserts := asserts_of_becomes
    (fun args variableName hsame => hraises args variableName (hsame ▸ hreads.1)) hbecomes
  constructor
  · rintro ⟨other, hother, hcheck⟩
    obtain rfl := hother.unique hreads
    exact hcheck.unique hasserts
  · rintro rfl
    exact ⟨reading, hreads, hasserts⟩

end Statement

namespace Generate

open Interaction (Written Demands)
open Statement (Asserts ExpectsException Fits Reads)

/-! ## The phases of a body -/

/-- `Verifies context ordinal statements setup checks` says what the statements of a Then phase put
before the action and leave behind it, in their order, where interactions are numbered from
`ordinal`. An interaction puts its expected chain before the action, with the capture of the block
that it forwards, and leaves the comparison of this block. What is written like an interaction and
cannot be taken apart is left as it is. An expected exception leaves nothing, and any other
statement what it is checked by. -/
inductive Verifies (context : Context) : Nat → List Tree → List Tree → List Tree → Prop where
  | nil {ordinal : Nat} : Verifies context ordinal [] [] []
  | interaction {ordinal : Nat} {t : Tree} {rest setup checks : List Tree}
      {demand : Interaction.Demand} (hdemands : Demands t demand)
      (hrest : Verifies context (ordinal + 1) rest setup checks) :
      Verifies context ordinal (t :: rest)
        (demand.expectation t.location :: demand.capture ordinal ++ setup)
        (demand.comparison ordinal ++ checks)
  | handedBack {ordinal : Nat} {t cardinality rhs : Tree} {outcomes rest setup checks : List Tree}
      (hwritten : Written t cardinality rhs outcomes) (hnone : ∀ demand, ¬ Demands t demand)
      (hrest : Verifies context ordinal rest setup checks) :
      Verifies context ordinal (t :: rest) setup (t :: checks)
  | raises {ordinal : Nat} {t : Tree} {rest setup checks : List Tree}
      (hraises : ExpectsException t) (hrest : Verifies context ordinal rest setup checks) :
      Verifies context ordinal (t :: rest) setup checks
  | check {ordinal : Nat} {t check : Tree} {rest setup checks : List Tree}
      {reading : Statement.Reading}
      (hother : ∀ cardinality rhs outcomes, ¬ Written t cardinality rhs outcomes)
      (hreads : Reads true t reading) (hasserts : Asserts context t reading check)
      (hrest : Verifies context ordinal rest setup checks) :
      Verifies context ordinal (t :: rest) setup (check :: checks)

/-- The check that statements raise an exception. -/
def raisingCheck (exception : Tree) (statements : List Tree) : Tree :=
  .node "block"
    [.node "send" [.nil, .symbol "assert_raises", exception] none, .node "args" [] none,
     .node "begin" statements none] none

/-- `Acts thens whens action` says that `action` are the When statements, or one check that they
raise the exception that a Then statement expects, which a variable may capture. -/
inductive Acts (thens whens : List Tree) : List Tree → Prop where
  | plain (hnone : ∀ t ∈ thens, ¬ ExpectsException t) : Acts thens whens whens
  | raises {t exception : Tree} {args : List Tree} (hmem : t ∈ thens)
      (hfits : Fits true t (.raises args none))
      (hexception : args.find? Tree.isNode = some exception) :
      Acts thens whens [raisingCheck exception whens]
  | captured {t exception : Tree} {args : List Tree} {name : String} (hmem : t ∈ thens)
      (hfits : Fits true t (.raises args (some name)))
      (hexception : args.find? Tree.isNode = some exception) :
      Acts thens whens [.node "lvasgn" [.symbol name, raisingCheck exception whens] none]

/-- `Runs context statements run` says that `run` are the statements of a body in their order: the
Given statements, what the Then statements put before the action, the action, what they leave behind
it, and what the Expect statements are checked by. -/
inductive Runs (context : Context) (statements : List Tree) : List Tree → Prop where
  | intro {setup action checks expectations : List Tree}
      (hthen : Verifies context 0 (statementsIn .then statements) setup checks)
      (haction : Acts (statementsIn .then statements) (statementsIn .when statements) action)
      (hexpect : List.Forall₂
        (fun t check => ∃ reading, Reads false t reading ∧ Asserts context t reading check)
        (statementsIn .expect statements) expectations) :
      Runs context statements
        (statementsIn .given statements ++ setup ++ action ++ checks ++ expectations)

/-- `AsLocals t u` says that `u` is `t` with its bare calls to `_test_index_` and `_line_number_`
read as locals, at their places. -/
inductive AsLocals : Tree → Tree → Prop where
  | leaf (value : Scalar) : AsLocals (.leaf value) (.leaf value)
  | call {tag name : String} {place : Option Span} (htag : tag ∈ ["send", "csend"])
      (hname : name ∈ ["_test_index_", "_line_number_"]) :
      AsLocals (.node tag [.nil, .symbol name] place) (.node "lvar" [.symbol name] place)
  | other {tag : String} {children read : List Tree} {place : Option Span}
      (hother : tag ∈ ["send", "csend"] → ∀ name ∈ ["_test_index_", "_line_number_"],
        children ≠ [.nil, .symbol name])
      (hchildren : List.Forall₂ AsLocals children read) :
      AsLocals (.node tag children place) (.node tag read place)

/-- `Reassembles context statements body` says that `body` holds the statements of a test in their
order. Cleanup statements, if there are any, are run behind them whatever happens. -/
inductive Reassembles (context : Context) (statements : List Tree) (body : Tree) : Prop where
  | plain {run : List Tree} (hcleanup : statementsIn .cleanup statements = [])
      (hruns : Runs context statements run) (hlocals : AsLocals (.node "begin" run none) body)
  | cleanedUp {run : List Tree} (hcleanup : statementsIn .cleanup statements ≠ [])
      (hruns : Runs context statements run)
      (hlocals : AsLocals
        (.node "kwbegin"
          [.node "ensure"
            [.node "begin" run none, .node "begin" (statementsIn .cleanup statements) none]
            none] none) body)

/-! ## What determines a body -/

private theorem eq_map_of_forall₂ {α β : Type} {R : α → β → Prop} {f : α → β} {items : List α}
    {results : List β} (hrelated : List.Forall₂ R items results)
    (hunique : ∀ item ∈ items, ∀ result, R item result → result = f item) :
    results = items.map f := by
  induction hrelated with
  | nil => rfl
  | cons hfirst _ ih =>
    obtain ⟨hitem, hitems⟩ := List.forall_mem_cons.mp hunique
    rw [List.map_cons, hitem _ hfirst, ih hitems]

/-- Trees are read in one way. -/
private theorem AsLocals.eq (t : Tree) {u : Tree} (hlocals : AsLocals t u) :
    u = callsToLocals [testIndex, lineNumber] t := by
  cases hlocals with
  | leaf value => rw [callsToLocals]
  | call htag hname =>
    exact (callsToLocals_of_call (Tree.bareCall?_iff_written.mpr ⟨_, htag, _, rfl⟩) hname).symm
  | @other tag children read place hother hchildren =>
    have hnone : ∀ name ∈ [testIndex, lineNumber],
        (Tree.node tag children place).bareCall? ≠ some name := by
      intro name hname hcall
      obtain ⟨_, htag, _, hwritten⟩ := Tree.bareCall?_iff_written.mp hcall
      obtain ⟨rfl, hsame, -⟩ := Tree.node.inj hwritten
      exact hother htag name hname hsame
    rw [callsToLocals_of_other hnone,
      eq_map_of_forall₂ hchildren fun child _ read hread => AsLocals.eq child hread]

/-- Every tree is read in this way. -/
private theorem asLocals_callsToLocals (t : Tree) :
    AsLocals t (callsToLocals [testIndex, lineNumber] t) := by
  cases t with
  | leaf value =>
    rw [callsToLocals]
    exact .leaf value
  | node tag children place =>
    rcases call_or_other [testIndex, lineNumber] (.node tag children place) with
      ⟨name, hname, hcall⟩ | hother
    · rw [callsToLocals_of_call hcall hname]
      obtain ⟨_, htag, _, hwritten⟩ := Tree.bareCall?_iff_written.mp hcall
      obtain ⟨rfl, rfl, rfl⟩ := Tree.node.inj hwritten
      exact .call htag hname
    · rw [callsToLocals_of_other hother]
      refine .other (fun htag name hname hsame => ?_) ?_
      · exact hother name hname (Tree.bareCall?_iff_written.mpr ⟨_, htag, _, by rw [hsame]⟩)
      · rw [List.forall₂_map_right_iff]
        exact List.forall₂_same.mpr fun child _ => asLocals_callsToLocals child

private theorem asLocals_iff {t u : Tree} :
    AsLocals t u ↔ u = callsToLocals [testIndex, lineNumber] t := by
  constructor
  · exact AsLocals.eq t
  · rintro rfl
    exact asLocals_callsToLocals t

/-! ## Then phases -/

section Then

variable {context : Context} {t : Tree}

/-- Interactions have a receiver, so they expect no exception. -/
private theorem isInteraction_eq_false {args : List Tree} {variableName : Option String}
    (hfits : Fits true t (.raises args variableName)) : t.isInteraction = false := by
  cases hfits with
  | raises _ hcall =>
    obtain ⟨tag, -, place, rfl⟩ := hcall
    unfold Tree.isInteraction
    split
    · rename_i hsame
      obtain ⟨-, hchildren, -⟩ := Tree.node.inj hsame
      obtain ⟨rfl, hmethod⟩ := List.cons.inj hchildren
      obtain ⟨hmethod, -⟩ := List.cons.inj hmethod
      obtain rfl : "raises" = _ := by simpa using hmethod
      simp
    · rfl
  | captured =>
    rw [Bool.eq_false_iff]
    intro hrecognized
    have htag : "lvasgn" = "send" ∨ "lvasgn" = "csend" := Interaction.tag_cases hrecognized
    revert htag
    decide

/-- An exception that a statement expects is named if the statement can be parsed. -/
private theorem exists_raised? {parsed : Tree}
    (hparsed : TestMethod.thenStatement context t = .ok parsed) {args : List Tree}
    {variableName : Option String} (hfits : Fits true t (.raises args variableName)) :
    ∃ exception, args.find? Tree.isNode = some exception ∧
      Statement.raised? t = some ⟨exception, variableName⟩ := by
  have hcall := Statement.fits_raises_iff.mp hfits
  have hfirst : (Tree.nodesOf args).head? = args.find? Tree.isNode := List.head?_filter
  unfold TestMethod.thenStatement Statement.classify at hparsed
  rw [isInteraction_eq_false hfits, if_neg Bool.false_ne_true, if_pos rfl] at hparsed
  obtain ⟨built, hbuilt, -⟩ := ok_of_bind hparsed
  unfold Statement.raises? at hbuilt
  rw [hcall] at hbuilt
  dsimp only at hbuilt
  split at hbuilt
  · rename_i exception others hnodes
    rw [hnodes, List.head?_cons] at hfirst
    refine ⟨exception, hfirst.symm, ?_⟩
    unfold Statement.raised?
    simp only [hcall, Option.bind_some, hnodes, List.head?_cons, Option.map_some]
  · cases hbuilt

private theorem raised?_isSome_iff {parsed : Tree}
    (hparsed : TestMethod.thenStatement context t = .ok parsed) :
    (Statement.raised? t).isSome = true ↔ ExpectsException t := by
  constructor
  · intro hraised
    refine Statement.expectsException_iff.mpr ?_
    unfold Statement.raised? at hraised
    cases hcall : Statement.raisesCall? t with
    | none => simp [hcall] at hraised
    | some found => rfl
  · rintro ⟨args, variableName, hfits⟩
    obtain ⟨exception, -, hraised⟩ := exists_raised? hparsed hfits
    rw [hraised]
    rfl

/-- An interaction that cannot be taken apart is left as it is. -/
private theorem entry_of_handedBack (hrecognized : t.isInteraction = true)
    (hnone : ∀ demand, ¬ Demands t demand) (ordinal : Nat) :
    Interaction.parsed? t = none ∧ setupOf (t, ordinal) = [] ∧
      checksOf context (t, ordinal) = [t] := by
  have hparsed : Interaction.parsed? t = none := by
    refine Option.eq_none_iff_forall_ne_some.mpr fun found hfound => ?_
    obtain ⟨demand, hdemands⟩ := Interaction.exists_demands_of_parsed? hfound
    exact hnone demand hdemands
  unfold setupOf checksOf
  simp only [hparsed, hrecognized, if_true, and_self]

/-- A statement that expects an exception leaves nothing. -/
private theorem entry_of_raises {parsed : Tree}
    (hparsed : TestMethod.thenStatement context t = .ok parsed)
    (hraises : ExpectsException t) (ordinal : Nat) :
    Interaction.parsed? t = none ∧ setupOf (t, ordinal) = [] ∧
      checksOf context (t, ordinal) = [] := by
  have hraised := (raised?_isSome_iff hparsed).mpr hraises
  obtain ⟨args, variableName, hfits⟩ := hraises
  have hother := isInteraction_eq_false hfits
  unfold setupOf checksOf
  simp only [Interaction.parsed?_eq_none hother, hother, hraised, Bool.false_eq_true, if_false,
    if_true, and_self]

/-- Any other statement is checked. -/
private theorem entry_of_check {parsed : Tree}
    (hparsed : TestMethod.thenStatement context t = .ok parsed) (hother : t.isInteraction = false)
    (hraises : ¬ ExpectsException t) (ordinal : Nat) :
    Interaction.parsed? t = none ∧ setupOf (t, ordinal) = [] ∧
      checksOf context (t, ordinal) = [assertion (Statement.condition context t)] := by
  have hraised : (Statement.raised? t).isSome = false :=
    Bool.eq_false_iff.mpr fun hraised => hraises ((raised?_isSome_iff hparsed).mp hraised)
  unfold setupOf checksOf
  simp only [Interaction.parsed?_eq_none hother, hother, hraised, Bool.false_eq_true, if_false,
    and_self]

/-- An interaction that is taken apart puts its chain before the action. -/
private theorem entry_of_demands {parsed : Tree} {demand : Interaction.Demand}
    (hparsed : TestMethod.thenStatement context t = .ok parsed) (hdemands : Demands t demand)
    (ordinal : Nat) :
    (Interaction.parsed? t).isSome = true ∧
      setupOf (t, ordinal) = demand.expectation t.location :: demand.capture ordinal ∧
      checksOf context (t, ordinal) = demand.comparison ordinal := by
  unfold TestMethod.thenStatement at hparsed
  rw [if_pos hdemands.isInteraction] at hparsed
  obtain ⟨count, hcount⟩ := hdemands.resolve_of_parse hparsed
  refine ⟨?_, hdemands.setupOf_eq hcount ordinal, hdemands.checksOf_eq hcount context ordinal⟩
  rw [hdemands.parsed?_eq hcount]
  rfl

private theorem isInteraction_of_not_written
    (hother : ∀ cardinality rhs outcomes, ¬ Written t cardinality rhs outcomes) :
    t.isInteraction = false := by
  rw [Bool.eq_false_iff]
  intro hrecognized
  obtain ⟨cardinality, rhs, outcomes, hwritten⟩ :=
    Interaction.isInteraction_iff_written.mp hrecognized
  exact hother cardinality rhs outcomes hwritten

/-- What the statements of a Then phase that can be parsed are generated into. -/
private theorem verifies_numbered {statements : List Tree} (hnodes : Tree.AllNodes statements)
    (hparsed : ∀ s ∈ statements, ∃ parsed, TestMethod.thenStatement context s = .ok parsed)
    (ordinal : Nat) :
    Verifies context ordinal statements ((numbered ordinal statements).flatMap setupOf)
      ((numbered ordinal statements).flatMap (checksOf context)) := by
  induction statements generalizing ordinal with
  | nil => exact .nil
  | cons t rest ih =>
    obtain ⟨hnode, hnodes⟩ := List.forall_mem_cons.mp hnodes
    obtain ⟨⟨parsed, hstatement⟩, hparsed⟩ := List.forall_mem_cons.mp hparsed
    rw [numbered, List.flatMap_cons, List.flatMap_cons]
    -- Only an interaction that is taken apart uses up a number, so the numbers stay in step.
    by_cases hdemand : ∃ demand, Demands t demand
    · obtain ⟨demand, hdemands⟩ := hdemand
      obtain ⟨hsome, hsetup, hchecks⟩ := entry_of_demands hstatement hdemands ordinal
      rw [hsetup, hchecks, if_pos hsome]
      exact .interaction hdemands (ih hnodes hparsed (ordinal + 1))
    by_cases hwritten : ∃ cardinality rhs outcomes, Written t cardinality rhs outcomes
    · have hnone : ∀ demand, ¬ Demands t demand := fun demand hdemands => hdemand ⟨demand, hdemands⟩
      obtain ⟨hparsed?, hsetup, hchecks⟩ := entry_of_handedBack
        (Interaction.isInteraction_iff_written.mpr hwritten) hnone ordinal
      obtain ⟨_, _, _, hwritten⟩ := hwritten
      rw [hsetup, hchecks, hparsed?]
      exact .handedBack hwritten hnone (ih hnodes hparsed ordinal)
    have hother : ∀ cardinality rhs outcomes, ¬ Written t cardinality rhs outcomes :=
      fun _ _ _ hother => hwritten ⟨_, _, _, hother⟩
    by_cases hraises : ExpectsException t
    · obtain ⟨hparsed?, hsetup, hchecks⟩ := entry_of_raises hstatement hraises ordinal
      rw [hsetup, hchecks, hparsed?]
      exact .raises hraises (ih hnodes hparsed ordinal)
    · obtain ⟨hparsed?, hsetup, hchecks⟩ := entry_of_check hstatement
        (isInteraction_of_not_written hother) hraises ordinal
      obtain ⟨reading, hreads, hasserts⟩ := (Statement.asserts_iff hnode
        fun args variableName hfits => hraises ⟨args, variableName, hfits⟩).mpr rfl
      rw [hsetup, hchecks, hparsed?]
      exact .check hother hreads hasserts (ih hnodes hparsed ordinal)

/-- And into nothing else. -/
private theorem Verifies.eq_numbered {statements setup checks : List Tree} {ordinal : Nat}
    (hverifies : Verifies context ordinal statements setup checks)
    (hnodes : Tree.AllNodes statements)
    (hparsed : ∀ s ∈ statements, ∃ parsed, TestMethod.thenStatement context s = .ok parsed) :
    setup = (numbered ordinal statements).flatMap setupOf ∧
      checks = (numbered ordinal statements).flatMap (checksOf context) := by
  -- Each case says what its first statement becomes, and the rest follows by induction.
  induction hverifies with
  | nil => exact ⟨rfl, rfl⟩
  | @interaction ordinal t rest setup checks demand hdemands _ ih =>
    obtain ⟨-, hnodes⟩ := List.forall_mem_cons.mp hnodes
    obtain ⟨⟨parsed, hstatement⟩, hparsed⟩ := List.forall_mem_cons.mp hparsed
    obtain ⟨hsome, hsetup, hchecks⟩ := entry_of_demands hstatement hdemands ordinal
    obtain ⟨rfl, rfl⟩ := ih hnodes hparsed
    rw [numbered, List.flatMap_cons, List.flatMap_cons, hsetup, hchecks, if_pos hsome]
    exact ⟨rfl, rfl⟩
  | @handedBack ordinal t _ _ _ rest setup checks hwritten hnone _ ih =>
    obtain ⟨-, hnodes⟩ := List.forall_mem_cons.mp hnodes
    obtain ⟨-, hparsed⟩ := List.forall_mem_cons.mp hparsed
    obtain ⟨hparsed?, hsetup, hchecks⟩ := entry_of_handedBack
      (Interaction.isInteraction_iff_written.mpr ⟨_, _, _, hwritten⟩) hnone ordinal
    obtain ⟨rfl, rfl⟩ := ih hnodes hparsed
    rw [numbered, List.flatMap_cons, List.flatMap_cons, hsetup, hchecks, hparsed?]
    exact ⟨rfl, rfl⟩
  | @raises ordinal t rest setup checks hraises _ ih =>
    obtain ⟨-, hnodes⟩ := List.forall_mem_cons.mp hnodes
    obtain ⟨⟨parsed, hstatement⟩, hparsed⟩ := List.forall_mem_cons.mp hparsed
    obtain ⟨hparsed?, hsetup, hchecks⟩ := entry_of_raises hstatement hraises ordinal
    obtain ⟨rfl, rfl⟩ := ih hnodes hparsed
    rw [numbered, List.flatMap_cons, List.flatMap_cons, hsetup, hchecks, hparsed?]
    exact ⟨rfl, rfl⟩
  | @check ordinal t check rest setup checks reading hother hreads hasserts _ ih =>
    obtain ⟨hnode, hnodes⟩ := List.forall_mem_cons.mp hnodes
    obtain ⟨⟨parsed, hstatement⟩, hparsed⟩ := List.forall_mem_cons.mp hparsed
    -- `Asserts` has no case for an expected exception, so the reading is another one.
    have hraises : ∀ args variableName, ¬ Fits true t (.raises args variableName) := by
      intro args variableName hfits
      obtain rfl := hreads.unique ⟨hfits, fun _ _ => Nat.zero_le _⟩
      cases hasserts
    have hplain : ¬ ExpectsException t := by
      rintro ⟨args, variableName, hfits⟩
      exact hraises args variableName hfits
    obtain ⟨hparsed?, hsetup, hchecks⟩ := entry_of_check hstatement
      (isInteraction_of_not_written hother) hplain ordinal
    obtain rfl := (Statement.asserts_iff hnode hraises).mp ⟨reading, hreads, hasserts⟩
    obtain ⟨rfl, rfl⟩ := ih hnodes hparsed
    rw [numbered, List.flatMap_cons, List.flatMap_cons, hsetup, hchecks, hparsed?]
    exact ⟨rfl, rfl⟩

end Then

/-! ## The action -/

/-- At most one statement of a phase expects an exception. -/
def ExpectsOnce (statements : List Tree) : Prop :=
  statements.Pairwise fun s s' => ¬ (ExpectsException s ∧ ExpectsException s')

private theorem ExpectsOnce.eq {statements : List Tree} (honce : ExpectsOnce statements)
    {s s' : Tree} (hs : s ∈ statements) (hs' : s' ∈ statements) (hraises : ExpectsException s)
    (hraises' : ExpectsException s') : s = s' := by
  have hsymm : Std.Symm fun s s' => ¬ (ExpectsException s ∧ ExpectsException s') :=
    ⟨fun _ _ hnot hboth => hnot hboth.symm⟩
  by_contra hne
  exact honce.forall hs hs' hne ⟨hraises, hraises'⟩

instance : DecidablePred ExpectsOnce :=
  fun _ => inferInstanceAs (Decidable (List.Pairwise _ _))

/-- So at most one exception is expected. -/
private theorem ExpectsOnce.length_le {context : Context} {statements : List Tree}
    (honce : ExpectsOnce statements)
    (hparsed : ∀ s ∈ statements, ∃ parsed, TestMethod.thenStatement context s = .ok parsed) :
    (statements.filterMap Statement.raised?).length ≤ 1 := by
  induction statements with
  | nil => exact Nat.zero_le 1
  | cons s rest ih =>
    obtain ⟨hfirst, hrest⟩ := List.pairwise_cons.mp honce
    obtain ⟨⟨parsed, hstatement⟩, hparsed⟩ := List.forall_mem_cons.mp hparsed
    cases hraised : Statement.raised? s with
    | none =>
      rw [List.filterMap_cons_none hraised]
      exact ih hrest hparsed
    | some view =>
      have hraises := (raised?_isSome_iff hstatement).mp (by rw [hraised]; rfl)
      have hnone : rest.filterMap Statement.raised? = [] := by
        refine List.filterMap_eq_nil_iff.mpr fun other hother => ?_
        obtain ⟨_, hdone⟩ := hparsed other hother
        by_contra hsome
        have hothers := (raised?_isSome_iff hdone).mp (Option.isSome_iff_ne_none.mpr hsome)
        exact hfirst other hother ⟨hraises, hothers⟩
      rw [List.filterMap_cons_some hraised, hnone]
      exact Nat.le_refl 1

section Action

variable {context : Context} {thens whens : List Tree}
  (hparsed : ∀ s ∈ thens, ∃ parsed, TestMethod.thenStatement context s = .ok parsed)

include hparsed

/-- The exception that is expected is the first one that is found. -/
private theorem findSome?_raised? (honce : ExpectsOnce thens) {t : Tree} {view : Ir.RaisesView}
    (ht : t ∈ thens) (hraised : Statement.raised? t = some view) :
    thens.findSome? Statement.raised? = some view := by
  have hsome : (thens.findSome? Statement.raised?).isSome = true :=
    List.findSome?_isSome_iff.mpr ⟨t, ht, by rw [hraised]; rfl⟩
  obtain ⟨other, hfound⟩ := Option.isSome_iff_exists.mp hsome
  obtain ⟨s, hs, hother⟩ := List.exists_of_findSome?_eq_some hfound
  obtain ⟨_, hdone⟩ := hparsed s hs
  obtain ⟨_, hstatement⟩ := hparsed t ht
  have hsame : s = t := honce.eq hs ht ((raised?_isSome_iff hdone).mp (by rw [hother]; rfl))
    ((raised?_isSome_iff hstatement).mp (by rw [hraised]; rfl))
  rw [hfound, ← hother, hsame, hraised]

/-- None is found if none is expected. -/
private theorem findSome?_raised?_eq_none (hnone : ∀ s ∈ thens, ¬ ExpectsException s) :
    thens.findSome? Statement.raised? = none := by
  refine List.findSome?_eq_none_iff.mpr fun s hs => ?_
  obtain ⟨_, hdone⟩ := hparsed s hs
  exact Option.not_isSome_iff_eq_none.mp fun hraised =>
    hnone s hs ((raised?_isSome_iff hdone).mp hraised)

/-- What the When statements are generated into. -/
private theorem acts_iff (honce : ExpectsOnce thens) {action : List Tree} :
    Acts thens whens action ↔ action = actionOf (thens.findSome? Statement.raised?) whens := by
  constructor
  · intro hacts
    cases hacts with
    | plain hnone =>
      rw [findSome?_raised?_eq_none hparsed hnone]
      rfl
    | raises hmem hfits hexception =>
      obtain ⟨_, hdone⟩ := hparsed _ hmem
      obtain ⟨exception, hfirst, hraised⟩ := exists_raised? hdone hfits
      obtain rfl := Option.some.inj (hfirst.symm.trans hexception)
      rw [findSome?_raised? hparsed honce hmem hraised]
      rfl
    | captured hmem hfits hexception =>
      obtain ⟨_, hdone⟩ := hparsed _ hmem
      obtain ⟨exception, hfirst, hraised⟩ := exists_raised? hdone hfits
      obtain rfl := Option.some.inj (hfirst.symm.trans hexception)
      rw [findSome?_raised? hparsed honce hmem hraised]
      rfl
  · rintro rfl
    by_cases hraises : ∃ s ∈ thens, ExpectsException s
    · obtain ⟨s, hs, args, variableName, hfits⟩ := hraises
      obtain ⟨_, hdone⟩ := hparsed s hs
      obtain ⟨exception, hfirst, hraised⟩ := exists_raised? hdone hfits
      rw [findSome?_raised? hparsed honce hs hraised]
      cases variableName with
      | none => exact .raises hs hfits hfirst
      | some name => exact .captured hs hfits hfirst
    · have hnone : ∀ s ∈ thens, ¬ ExpectsException s :=
        fun s hs hexpects => hraises ⟨s, hs, hexpects⟩
      rw [findSome?_raised?_eq_none hparsed hnone]
      exact .plain hnone

end Action

/-! ## Bodies -/

section Body

variable {context : Context} {statements : List Tree} (hnodes : Tree.AllNodes statements)
  (hparsed : ∀ s ∈ statementsIn .then statements,
    ∃ parsed, TestMethod.thenStatement context s = .ok parsed)
  (honce : ExpectsOnce (statementsIn .then statements))

include hnodes hparsed honce

private theorem runs_iff {run : List Tree} :
    Runs context statements run ↔ run = bodyStatements context statements := by
  have hphase (phase : Phase) : Tree.AllNodes (statementsIn phase statements) :=
    fun s hs => hnodes s (mem_of_mem_statementsIn hs).1
  have hnone (s : Tree) : ∀ args variableName, ¬ Fits false s (.raises args variableName) :=
    fun _ _ hfits => Bool.false_ne_true hfits.raisesCall?.1
  constructor
  · rintro ⟨hthen, haction, hexpect⟩
    obtain ⟨rfl, rfl⟩ := hthen.eq_numbered (hphase .then) hparsed
    obtain rfl := (acts_iff hparsed honce).mp haction
    obtain rfl := eq_map_of_forall₂ hexpect fun s hs check hcheck =>
      (Statement.asserts_iff (hphase .expect s hs) (hnone s)).mp hcheck
    rfl
  · rintro rfl
    refine .intro (verifies_numbered (hphase .then) hparsed 0) ((acts_iff hparsed honce).mpr rfl) ?_
    rw [List.forall₂_map_right_iff]
    exact List.forall₂_same.mpr fun s hs =>
      (Statement.asserts_iff (hphase .expect s hs) (hnone s)).mpr rfl

/-- The statements of a test determine its body, which is the one that is generated. -/
private theorem reassembles_iff {body : Tree} :
    Reassembles context statements body ↔ body = bodyOf context statements := by
  have hbody : bodyOf context statements = callsToLocals [testIndex, lineNumber]
      (cleanedUp (bodyStatements context statements) (statementsIn .cleanup statements)) :=
    (callsToLocals_cleanedUp _ _ _).symm
  have hruns := @runs_iff context statements hnodes hparsed honce
  rw [hbody]
  constructor
  · rintro (⟨hcleanup, hrun, hlocals⟩ | ⟨hcleanup, hrun, hlocals⟩)
    · obtain rfl := hruns.mp hrun
      rw [hcleanup]
      exact asLocals_iff.mp hlocals
    · obtain rfl := hruns.mp hrun
      rw [cleanedUp, if_neg (by rwa [List.isEmpty_iff])]
      exact asLocals_iff.mp hlocals
  · rintro rfl
    by_cases hcleanup : statementsIn .cleanup statements = []
    · refine .plain hcleanup (hruns.mpr rfl) (asLocals_iff.mpr ?_)
      rw [hcleanup]
      rfl
    · refine .cleanedUp hcleanup (hruns.mpr rfl) (asLocals_iff.mpr ?_)
      rw [cleanedUp, if_neg (by rwa [List.isEmpty_iff])]
      rfl

end Body

/-- A parsed test without a Where phase and with at most one expected exception is generated into
its call, its parameters and the one body that its statements are reassembled into. Introducers
aside, the statements of the test are the statements of its phases, in this order. -/
theorem method_of_parse {context : Context} {t test : Tree}
    (hparse : TestMethod.parse context t = .ok test)
    (hwhere : ∀ s ∈ t.testStatements, s.introduces? ≠ some .where)
    (honce : ExpectsOnce (statementsIn .then t.testStatements)) :
    ∃ methodCall args body, t.nodeAt? 0 = some methodCall ∧ t.nodeAt? 1 = some args ∧
      method test = .ok (.node "block" [methodCall, args, body] none) ∧
      (∀ other, Reassembles context t.testStatements other ↔ other = body) ∧
      t.testStatements.filter (fun s => s.introduces?.isNone) =
        Phase.plain.flatMap (statementsIn · t.testStatements) := by
  have hparsed : ∀ s ∈ statementsIn .then t.testStatements,
      ∃ parsed, TestMethod.thenStatement context s = .ok parsed :=
    fun _ hs => TestMethod.thenStatement_of_parse hparse hs
  obtain ⟨methodCall, args, hcall, hargs, hmethod, hstatements⟩ :=
    method_of_plain hparse hwhere (honce.length_le hparsed)
  exact ⟨methodCall, args, bodyOf context t.testStatements, hcall, hargs, hmethod,
    fun _ => reassembles_iff t.allNodes_testStatements hparsed honce, hstatements⟩

open Tree.Build

/-- A test whose Then phase expects a message with a forwarded block, an exception and a
comparison. -/
def doorTest : Tree :=
  let word (name : String) := call none name []
  let message := call (some (word "door")) "open" [fresh "block_pass" [word "ring"]]
  fresh "block"
    [call none "test" [str "opens"], fresh "args" [],
     begin
       [word "Given", word "prepare", word "When", word "act", word "Then",
        call (some (fresh "int" [.int 1])) "*" [message],
        call none "raises" [constant none "Closed"],
        call (some (word "state")) "==" [sym "open"], word "Cleanup", word "leave"]]

/-- The body that it is generated into, where a local holds the captured block. -/
def doorBody (captured : String) : Tree :=
  let word (name : String) := call none name []
  let chain := call (some (call (some (word "door")) "expects" [sym "open"])) "times" [int 1]
  let blockCapture := constant (some (constant none "PhaseSpec")) "BlockCapture"
  let run :=
    [word "prepare", chain,
     lvasgn captured (call (some blockCapture) "capture" [word "door", sym "open"]),
     fresh "block"
       [call none "assert_raises" [constant none "Closed"], fresh "args" [], begin [word "act"]],
     call none "assert_same" [word "ring", call (some (lvar captured)) "call" []],
     call none "assert_equal" [sym "open", word "state"]]
  fresh "kwbegin" [fresh "ensure" [begin run, begin [word "leave"]]]

/-- The generated method of such a test. -/
theorem method_of_parse_doorTest :
    ∃ test, TestMethod.parse .detached doorTest = .ok test ∧
      (∀ s ∈ doorTest.testStatements, s.introduces? ≠ some .where) ∧
      ExpectsOnce (statementsIn .then doorTest.testStatements) ∧
      method test = .ok (fresh "block"
        [call none "test" [str "opens"], fresh "args" [], doorBody "__phasespec_blk_0"]) ∧
      (∀ other, Reassembles .detached doorTest.testStatements other ↔
        other = doorBody "__phasespec_blk_0") ∧
      doorTest.testStatements.filter (fun s => s.introduces?.isNone) =
        Phase.plain.flatMap (statementsIn · doorTest.testStatements) := by
  have hwhere : ∀ s ∈ doorTest.testStatements, s.introduces? ≠ some .where := by decide
  have honce : ExpectsOnce (statementsIn .then doorTest.testStatements) := by decide
  have hparse : ∃ test, TestMethod.parse .detached doorTest = .ok test := ⟨_, rfl⟩
  obtain ⟨test, hparse⟩ := hparse
  obtain ⟨methodCall, args, body, hcall, hargs, hmethod, hreassembles, hstatements⟩ :=
    method_of_parse hparse hwhere honce
  have hname : "__phasespec_blk_0" = captureName 0 := by decide
  have hbody : doorBody "__phasespec_blk_0" = bodyOf .detached doorTest.testStatements := by
    rw [hname]
    rfl
  have hown := (reassembles_iff doorTest.allNodes_testStatements
    (fun _ hs => TestMethod.thenStatement_of_parse hparse hs) honce).mpr hbody
  obtain rfl : call none "test" [str "opens"] = methodCall := Option.some.inj hcall
  obtain rfl : fresh "args" [] = args := Option.some.inj hargs
  obtain rfl : doorBody "__phasespec_blk_0" = body := (hreassembles _).mp hown
  exact ⟨test, hparse, hwhere, honce, hmethod, hreassembles, hstatements⟩

end Generate

end PhasedTests
