import PhasedTests.Proofs.Generate.Count
import PhasedTests.Proofs.Generate.Verification

/-!
# What interactions demand

A recognised interaction is taken apart at an operator, whatever it is generated into. The calls and
the nodes that stand for it in a generated test are written out here one by one.
-/

namespace PhasedTests

namespace Interaction

/-- How often which message must be received, with which arguments, and what it is answered. -/
structure Demand where
  cardinality : Tree
  receiver : Tree
  message : String
  args : List Tree
  outcome : Option Tree

/-- `Demands t demand` says that `t` is an interaction that is taken apart into `demand`. A product
is taken apart at its own operator. Otherwise the last outcome is taken off, and what is left is
taken apart at its operator, be it that of the product or that of another outcome. On the right of
the operator stands a call on a receiver. Arguments and outcomes are nodes. -/
inductive Demands : Tree → Demand → Prop where
  | product {tag message : String} {cardinality receiver : Tree} {args : List Tree}
      {place callPlace : Option Span} (htag : tag ∈ ["send", "csend"])
      (hcardinality : cardinality.isNode = true) (hreceiver : receiver.isNode = true) :
      Demands
        (.node tag [cardinality, .symbol "*",
          .node "send" (receiver :: .symbol message :: args) callPlace] place)
        ⟨cardinality, receiver, message, args.filter Tree.isNode, none⟩
  | outcome {tag inner call operator message : String}
      {left receiver outcome cardinality rhs : Tree} {args outcomes : List Tree}
      {place innerPlace callPlace : Option Span} (htag : tag ∈ ["send", "csend"])
      (hcall : call ∈ ["send", "csend"]) (hreceiver : receiver.isNode = true)
      (hwritten : Written (.node inner [left, .symbol operator,
        .node call (receiver :: .symbol message :: args) callPlace] innerPlace)
        cardinality rhs outcomes) :
      Demands
        (.node tag [.node inner [left, .symbol operator,
          .node call (receiver :: .symbol message :: args) callPlace] innerPlace,
          .symbol ">>", outcome] place)
        ⟨left, receiver, message, args.filter Tree.isNode, [outcome].find? Tree.isNode⟩

/-! ## Taking interactions apart -/

private theorem eq_of_call? {t receiver : Tree} {message : String} {args : List Tree}
    (hcall : t.call? = some ⟨some receiver, message, args⟩) :
    ∃ tag place, tag ∈ ["send", "csend"] ∧ receiver.isNode = true ∧
      t = .node tag (receiver :: .symbol message :: args) place := by
  obtain ⟨first, hchildren, hfirst⟩ := Tree.children_of_call? hcall
  obtain rfl := Tree.eq_of_receiver? hfirst
  cases t with
  | leaf value => cases hcall
  | node tag children place =>
    obtain rfl : children = _ := hchildren
    have htag : tag = "send" ∨ tag = "csend" := Tree.tag_of_call? hcall
    exact ⟨tag, place, by simpa using htag, Tree.isNode_of_call? hcall, rfl⟩

/-- The last outcome is taken off. It counts if it is a node. -/
private theorem parts_of_outcome {tag : String} {expectation outcome : Tree}
    {place : Option Span} (htag : tag ∈ ["send", "csend"])
    (hexpectation : expectation.isNode = true) :
    parts (.node tag [expectation, .symbol ">>", outcome] place) =
      (expectation, [outcome].find? Tree.isNode) := by
  unfold parts
  rw [call?_on htag hexpectation, List.find?_singleton]
  rfl

/-- Only interactions are taken apart. -/
theorem Demands.isInteraction {t : Tree} {demand : Demand} (hdemands : Demands t demand) :
    t.isInteraction = true := by
  cases hdemands with
  | product htag hcardinality =>
    exact isInteraction_iff_written.mpr ⟨_, _, _, .product htag hcardinality rfl⟩
  | outcome htag _ _ hwritten =>
    exact isInteraction_iff_written.mpr ⟨_, _, _, .outcome htag hwritten⟩

/-- The operands of an interaction are what its parser takes it apart into. -/
theorem Demands.operands {t : Tree} {demand : Demand} (hdemands : Demands t demand) :
    ∃ operator rhs args,
      (parts t).1.binaryCall? = some (demand.cardinality, operator, rhs) ∧
      rhs.call? = some ⟨some demand.receiver, demand.message, args⟩ ∧
      demand.args = Tree.nodesOf args ∧ demand.outcome = (parts t).2 := by
  cases hdemands with
  | product htag hcardinality hreceiver =>
    rw [parts_product htag hcardinality]
    exact ⟨_, _, _, binaryCall?_on htag hcardinality rfl, call?_on (by decide) hreceiver, rfl, rfl⟩
  | outcome htag hcall hreceiver hwritten =>
    rw [parts_of_outcome htag rfl]
    cases hwritten with
    | product htag hleft =>
      exact ⟨_, _, _, binaryCall?_on htag hleft rfl, call?_on hcall hreceiver, rfl, rfl⟩
    | outcome htag hleft =>
      have hnode := Tree.isNode_of_tagIn hleft.tagIn
      exact ⟨_, _, _, binaryCall?_on htag hnode rfl, call?_on hcall hreceiver, rfl, rfl⟩

/-- An interaction whose right operand is a call on a receiver is taken apart. -/
theorem demands_of_operands {t cardinality rhs receiver : Tree} {operator message : String}
    {args : List Tree} (hrecognized : t.isInteraction = true)
    (hoperands : (parts t).1.binaryCall? = some (cardinality, operator, rhs))
    (hcall : rhs.call? = some ⟨some receiver, message, args⟩) :
    Demands t ⟨cardinality, receiver, message, Tree.nodesOf args, (parts t).2⟩ := by
  obtain ⟨call, callPlace, hcallTag, hreceiver, rfl⟩ := eq_of_call? hcall
  obtain ⟨_, _, _, hwritten⟩ := isInteraction_iff_written.mp hrecognized
  cases hwritten with
  | product htag hcardinality hrhs =>
    rw [parts_product htag hcardinality] at hoperands ⊢
    rw [binaryCall?_on htag hcardinality (Tree.isNode_of_tagIn hrhs)] at hoperands
    obtain ⟨rfl, rfl, rfl⟩ := by simpa using hoperands
    have hkind : call = "send" ∨ call = "block" := by
      simpa [Tree.tagIn, Tree.isNode, Tree.tag] using hrhs
    -- The right side of a product may also be a block, but a block is no call.
    rcases hkind with rfl | rfl
    · exact .product htag hcardinality hreceiver
    · exact absurd hcallTag (by decide)
  | outcome htag hexpectation =>
    rw [parts_of_outcome htag (Tree.isNode_of_tagIn hexpectation.tagIn)] at hoperands ⊢
    obtain ⟨inner, innerPlace, -, rfl⟩ := Tree.eq_of_binaryCall? hoperands
    exact .outcome htag hcallTag hreceiver hexpectation

private theorem exists_call_of_build {cardinality rhs built : Tree} {outcome : Option Tree}
    (hdone : build cardinality rhs outcome = .ok (some built)) :
    ∃ receiver message args, rhs.call? = some ⟨some receiver, message, args⟩ := by
  unfold build at hdone
  cases hblock : rhs.hasTag "block" with
  | true =>
    rw [hblock] at hdone
    cases hdone
  | false =>
    rw [hblock] at hdone
    simp only [Bool.false_eq_true, ↓reduceIte] at hdone
    split at hdone
    · cases hdone
    · cases hdone
    · rename_i hcall
      exact ⟨_, _, _, hcall⟩

/-- An interaction that is parsed and not handed back is taken apart. -/
private theorem exists_demands_of_parse {t parsed : Tree} (hrecognized : t.isInteraction = true)
    (hparse : parse t = .ok parsed) : parsed = t ∨ ∃ demand, Demands t demand := by
  unfold parse at hparse
  rw [if_pos hrecognized] at hparse
  dsimp only at hparse
  split at hparse
  · rename_i cardinality operator rhs hoperands
    obtain ⟨built, hbuilt, hparse⟩ := ok_of_bind hparse
    cases built with
    | none => exact Or.inl (Except.ok.inj hparse).symm
    | some built =>
      obtain ⟨receiver, message, args, hcall⟩ := exists_call_of_build hbuilt
      exact Or.inr ⟨_, demands_of_operands hrecognized hoperands hcall⟩
  · exact Or.inl (Except.ok.inj hparse).symm

/-- So an interaction with a view is taken apart. -/
theorem exists_demands_of_parsed? {t : Tree} {found : Ir.InteractionView × Cardinality}
    (hparsed : parsed? t = some found) : ∃ demand, Demands t demand := by
  unfold parsed? at hparsed
  split at hparsed
  · rename_i hrecognized
    split at hparsed
    · rename_i parsed hparse
      rcases exists_demands_of_parse hrecognized hparse with rfl | hdemands
      · rw [(view_eq_none hrecognized).2] at hparsed
        cases hparsed
      · exact hdemands
    · cases hparsed
  · cases hparsed

/-- An interaction is taken apart in one way at most. -/
theorem Demands.unique {t : Tree} {first second : Demand} (hfirst : Demands t first)
    (hsecond : Demands t second) : first = second := by
  obtain ⟨_, _, _, hoperands, hcall, hargs, houtcome⟩ := hfirst.operands
  obtain ⟨_, _, _, hoperands', hcall', hargs', houtcome'⟩ := hsecond.operands
  obtain ⟨hcardinality, -, rfl⟩ := by simpa using hoperands.symm.trans hoperands'
  obtain ⟨hreceiver, hmessage, rfl⟩ := by simpa using hcall.symm.trans hcall'
  obtain ⟨_, _, _, _, _⟩ := first
  obtain ⟨_, _, _, _, _⟩ := second
  simp_all

/-! ## Calls of a chain -/

/-- Calls on a receiver, one after the other: each message with its arguments. The last call stands
at `place`. -/
def linked (place : Option Span) : Tree → List (String × List Tree) → Tree
  | t, [] => t
  | t, (message, args) :: rest =>
    linked place
      (.node "send" (t :: .symbol message :: args) (if rest.isEmpty then place else none)) rest

/-- The word `_`. -/
def isAny : Tree → Bool
  | .node tag [.leaf .nil, .leaf (.symbol word)] _ =>
    (tag == "send" || tag == "csend") && word == "_"
  | _ => false

/-- The calls that require a cardinality. A range is required by its bounds, of which an excluded
one is lowered by one. A bound `_` does not restrict, and neither does a cardinality `_`. Anything
else is an exact count. -/
def countCalls : Tree → List (String × List Tree)
  | .node "begin" [.node range (lower :: upper :: _) _] _ =>
    let highest := if range == "erange" then
        .node "send" [upper, .symbol "-", .node "int" [.int 1] none] none
      else upper
    ("at_least", [if isAny lower then .node "int" [.int 0] none else lower]) ::
      if isAny upper then [] else [("at_most", [highest])]
  | t => if isAny t then [("at_least", [.node "int" [.int 0] none])] else [("times", [t])]

/-- The calls that answer: `raises` without a receiver raises what it is given, and any other
outcome is returned. -/
def answerCalls : Option Tree → List (String × List Tree)
  | none => []
  | some (.node tag (.leaf .nil :: .leaf (.symbol "raises") :: args) place) =>
    if tag == "send" || tag == "csend" then [("raises", args)]
    else [("returns", [.node tag (.nil :: .symbol "raises" :: args) place])]
  | some value => [("returns", [value])]

namespace Demand

variable (demand : Demand)

/-- The arguments but for the first block that is forwarded. -/
def given : List Tree :=
  demand.args.eraseP forwards

/-- The first block that is forwarded. -/
def forwarded? : Option Tree :=
  (demand.args.find? forwards).bind fun pass => pass.nodeAt? 0

/-- The chain that expects the message, at the place of its interaction. -/
def expectation (place : Option Span) : Tree :=
  linked place demand.receiver
    (("expects", [.node "sym" [.symbol demand.message] none]) ::
      (if demand.given.isEmpty then [] else [("with", demand.given)]) ++
      countCalls demand.cardinality ++ answerCalls demand.outcome)

/-- The assignment that captures the block passed with the message, if one is forwarded. -/
def capture (ordinal : Nat) : List Tree :=
  match demand.forwarded? with
  | some _ =>
    [.node "lvasgn"
      [.symbol ("__phasespec_blk_" ++ toString ordinal),
       .node "send"
        [.node "const" [.node "const" [.nil, .symbol "PhaseSpec"] none, .symbol "BlockCapture"]
          none,
         .symbol "capture", demand.receiver, .node "sym" [.symbol demand.message] none] none] none]
  | none => []

/-- The assertion that the captured block is the one that is forwarded. -/
def comparison (ordinal : Nat) : List Tree :=
  match demand.forwarded? with
  | some block =>
    [.node "send"
      [.nil, .symbol "assert_same", block,
       .node "send"
        [.node "lvar" [.symbol ("__phasespec_blk_" ++ toString ordinal)] none, .symbol "call"]
        none] none]
  | none => []

/-- The parsed interaction of a demand. -/
def view (count : Cardinality) : Ir.InteractionView where
  cardinality := count.toTree
  receiver := demand.receiver
  message := demand.message
  args := if demand.given.isEmpty then none else some (Tree.Build.array demand.given)
  outcome := demand.outcome.map outcomeOf
  blockPass := demand.args.find? forwards

end Demand

/-! ## Generated chains -/

open Generate Tree.Build

/-- The calls of a chain as the generator builds them, none of them at a place. -/
private def inTurn (t : Tree) (calls : List (String × List Tree)) : Tree :=
  calls.foldl (fun t entry => call (some t) entry.1 entry.2) t

private theorem inTurn_append (t : Tree) (first second : List (String × List Tree)) :
    inTurn t (first ++ second) = inTurn (inTurn t first) second :=
  List.foldl_append

/-- A chain gets its place when it is complete, which moves its last call only. -/
private theorem linked_eq (place : Option Span) {t : Tree} {calls : List (String × List Tree)}
    (hcalls : calls ≠ []) : linked place t calls = (inTurn t calls).located place := by
  induction calls generalizing t with
  | nil => exact absurd rfl hcalls
  | cons entry rest ih =>
    rw [linked, inTurn, List.foldl_cons]
    cases rest with
    | nil => rfl
    | cons next rest => exact ih (List.cons_ne_nil _ _)

private theorem isWildcard_eq (t : Tree) : t.isWildcard = isAny t := by
  rw [Bool.eq_iff_iff, Tree.isWildcard, beq_iff_eq, Tree.bareCall?_iff_written]
  constructor
  · rintro ⟨tag, htag, location, rfl⟩
    simpa [isAny] using htag
  · intro hany
    unfold isAny at hany
    split at hany
    · rename_i tag word location
      rw [Bool.and_eq_true, beq_iff_eq] at hany
      obtain ⟨htag, rfl⟩ := hany
      exact ⟨tag, by simpa using htag, location, rfl⟩
    · cases hany

private theorem requireCount_eq {t : Tree} {count : Cardinality}
    (hcount : Cardinality.resolve t = .ok count) (chain : Tree) :
    requireCount chain count = inTurn chain (countCalls t) := by
  rcases Cardinality.resolve_cases hcount with
    ⟨hwildcard, rfl⟩ | ⟨hwildcard, hexact, rfl⟩ | ⟨range, low, high, hrange, hlow, hhigh, rfl⟩
  · unfold countCalls
    split
    · cases hwildcard
    · rw [isWildcard_eq] at hwildcard
      rw [if_pos hwildcard]
      rfl
  · unfold countCalls
    split
    · cases hexact
    · rw [isWildcard_eq] at hwildcard
      rw [if_neg (by rw [hwildcard]; decide)]
      rfl
  · obtain ⟨lower, hlower, rfl⟩ := Cardinality.ofTree_of_boundAt hlow
    obtain ⟨upper, hupper, rfl⟩ := Cardinality.ofTree_of_boundAt hhigh
    obtain ⟨place, rfl, htag⟩ := Cardinality.eq_of_range? hrange
    -- Both bounds are children of the range, which therefore has the shape that is looked at.
    match range, hlower, hupper with
    | .node tag (lower :: upper :: rest) inner, rfl, rfl =>
      have hkind : tag = "irange" ∨ tag = "erange" := by
        simpa [Tree.tagIn, Tree.isNode, Tree.tag] using htag
      unfold countCalls Bound.ofTree
      simp only [← isWildcard_eq]
      rcases hkind with rfl | rfl
      · cases lower.isWildcard <;> cases upper.isWildcard <;> rfl
      · cases lower.isWildcard <;> cases upper.isWildcard <;> rfl

private theorem outcomeOf_cases (value : Tree) :
    (∃ args, outcomeOf value = (Ir.buildStubRaises args).located value.location ∧
      answerCalls (some value) = [("raises", args)]) ∨
    outcomeOf value = (Ir.buildReturns value).located value.location ∧
      answerCalls (some value) = [("returns", [value])] := by
  by_cases hraises : ∃ args, Statement.IsRaisesCall value args
  · obtain ⟨args, hraises⟩ := hraises
    refine Or.inl ⟨args, ?_, ?_⟩
    · simp only [outcomeOf, Statement.isRaisesCall_iff.mp hraises]
    · obtain ⟨tag, htag, place, rfl⟩ := hraises
      have hsends : (tag == "send" || tag == "csend") = true := by simpa using htag
      rw [answerCalls, if_pos hsends]
  · refine Or.inr ⟨?_, ?_⟩
    · unfold outcomeOf
      dsimp only
      split
      · rename_i args hcall
        exact absurd ⟨args, Statement.isRaisesCall_iff.mpr hcall⟩ hraises
      · rfl
    · unfold answerCalls
      split
      · cases ‹some value = none›
      · rename_i tag args place hvalue
        obtain rfl := Option.some.inj hvalue
        rw [if_neg]
        intro hsends
        exact hraises ⟨args, tag, by simpa using hsends, place, rfl⟩
      · rename_i hvalue
        rw [Option.some.inj hvalue]

private theorem answerWith_eq (chain : Tree) {outcome : Option Tree}
    (hnode : ∀ value ∈ outcome, value.isNode = true) :
    answerWith chain (outcome.map outcomeOf) = inTurn chain (answerCalls outcome) := by
  cases outcome with
  | none => rfl
  | some value =>
    rw [Option.map_some]
    rcases outcomeOf_cases value with ⟨args, houtcome, hcalls⟩ | ⟨houtcome, hcalls⟩
    · rw [houtcome, hcalls]
      rfl
    · have hview : Ir.View.of? ((Ir.buildReturns value).located value.location) =
          some (.returns value) := by
        change ((Tree.node "ps_returns" [value] value.location).nodeAt? 0).map Ir.View.returns = _
        rw [Tree.nodeAt?_zero (hnode value rfl)]
        rfl
      rw [houtcome, hcalls, answerWith, Option.bind_some, hview]
      rfl

private theorem expectMessage_eq (demand : Demand) (count : Cardinality) :
    expectMessage (demand.view count) =
      inTurn demand.receiver (("expects", [.node "sym" [.symbol demand.message] none]) ::
        if demand.given.isEmpty then [] else [("with", demand.given)]) := by
  unfold expectMessage Demand.view
  cases demand.given.isEmpty <;> rfl

private theorem expectation_eq_view {demand : Demand} {count : Cardinality}
    (hcount : Cardinality.resolve demand.cardinality = .ok count)
    (houtcome : ∀ value ∈ demand.outcome, value.isNode = true) (place : Option Span) :
    Generate.expectation (demand.view count) count place = demand.expectation place := by
  unfold Generate.expectation Demand.expectation
  rw [linked_eq place (by simp), inTurn_append, inTurn_append,
    ← expectMessage_eq demand count, ← requireCount_eq hcount, ← answerWith_eq _ houtcome]
  rfl

namespace Demands

variable {t : Tree} {demand : Demand} {count : Cardinality}

private theorem isNode_outcome (hdemands : Demands t demand) :
    ∀ value ∈ demand.outcome, value.isNode = true := by
  intro value hvalue
  cases hdemands with
  | product => cases hvalue
  | outcome => exact List.find?_some hvalue

private theorem proper_view (hdemands : Demands t demand)
    (hcount : Cardinality.resolve demand.cardinality = .ok count) : (demand.view count).Proper where
  cardinality := (Cardinality.resolve_toTree hcount).1
  receiver := by
    cases hdemands with
    | product _ _ hreceiver => exact hreceiver
    | outcome _ _ hreceiver => exact hreceiver
  args := by
    intro args hargs
    obtain ⟨-, rfl⟩ := by simpa [Demand.view] using hargs
    rfl
  outcome := by
    intro outcome houtcome
    obtain ⟨value, -, rfl⟩ := Option.map_eq_some_iff.mp houtcome
    exact isNode_outcomeOf value
  blockPass := by
    intro pass hpass
    have hblock : forwards pass = true := List.find?_some hpass
    exact (Bool.and_eq_true_iff.mp hblock).1

/-- An interaction is parsed into what it demands if its cardinality is one. -/
theorem parse_eq (hdemands : Demands t demand)
    (hcount : Cardinality.resolve demand.cardinality = .ok count) :
    parse t = .ok ((demand.view count).build.located t.location) := by
  obtain ⟨operator, rhs, args, hoperands, hcall, hargs, houtcome⟩ := hdemands.operands
  unfold parse
  rw [if_pos hdemands.isInteraction]
  dsimp only
  rw [hoperands]
  dsimp only
  rw [build_of_call hcall, hcount, splitBlockPass_eq, ← hargs, ← houtcome]
  rfl

/-- Otherwise it is refused. -/
theorem resolve_of_parse (hdemands : Demands t demand) {parsed : Tree}
    (hparse : parse t = .ok parsed) :
    ∃ count, Cardinality.resolve demand.cardinality = .ok count := by
  obtain ⟨operator, rhs, args, hoperands, hcall, -, -⟩ := hdemands.operands
  unfold parse at hparse
  rw [if_pos hdemands.isInteraction] at hparse
  dsimp only at hparse
  rw [hoperands] at hparse
  obtain ⟨built, hbuilt, -⟩ := ok_of_bind hparse
  rw [build_of_call hcall] at hbuilt
  obtain ⟨count, hcount, -⟩ := ok_of_map hbuilt
  exact ⟨count, hcount⟩

/-- The view of an interaction holds what is demanded. -/
theorem parsed?_eq (hdemands : Demands t demand)
    (hcount : Cardinality.resolve demand.cardinality = .ok count) :
    parsed? t = some (demand.view count, count) := by
  have hagain := (Cardinality.resolve_toTree hcount).2
  unfold parsed?
  rw [if_pos hdemands.isInteraction, hdemands.parse_eq hcount]
  dsimp only
  rw [Ir.InteractionView.of?_build (hdemands.proper_view hcount), Option.bind_some]
  dsimp only [Demand.view]
  rw [hagain]

/-- What is generated for an interaction before the action and behind it is what it demands. -/
theorem setupOf_eq (hdemands : Demands t demand)
    (hcount : Cardinality.resolve demand.cardinality = .ok count) (ordinal : Nat) :
    setupOf (t, ordinal) = demand.expectation t.location :: demand.capture ordinal := by
  unfold setupOf
  rw [hdemands.parsed?_eq hcount]
  dsimp only
  rw [expectation_eq_view hcount hdemands.isNode_outcome]
  unfold Demand.capture
  change _ :: (demand.forwarded?.map _).toList = _
  cases demand.forwarded? <;> rfl

/-- What is generated behind the action is the comparison of the block that is forwarded. -/
theorem checksOf_eq (hdemands : Demands t demand)
    (hcount : Cardinality.resolve demand.cardinality = .ok count) (context : Context)
    (ordinal : Nat) : checksOf context (t, ordinal) = demand.comparison ordinal := by
  unfold checksOf
  rw [hdemands.parsed?_eq hcount]
  dsimp only
  unfold Demand.comparison
  change (demand.forwarded?.map _).toList = _
  cases demand.forwarded? <;> rfl

end Demands

end Interaction

end PhasedTests
