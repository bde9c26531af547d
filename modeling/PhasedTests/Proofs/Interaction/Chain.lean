import PhasedTests.Proofs.Interaction.Parse
import PhasedTests.Proofs.Tree.Inside

/-!
# Interactions and their outcomes

An interaction is a product, followed by any number of outcomes. One with at most one outcome is
parsed from the operands of its product. Of a longer one only the last outcome is taken off before
the product is looked for, so the operator that is read as the product is another one, and what is
parsed never says what the product does.
-/

namespace PhasedTests

namespace Tree

/-- Whether the tree is a call whose arguments are all nodes. -/
def isWellFormedCall (t : Tree) : Bool :=
  match t.call? with
  | some call => call.args.all isNode
  | none => false

/-- All calls of the tree have a receiver or nil, a method and arguments that are nodes. -/
def WellFormedCalls (t : Tree) : Prop :=
  ∀ u, Inside u t → u.tagIn ["send", "csend"] = true → u.isWellFormedCall = true

instance : DecidablePred WellFormedCalls :=
  decideInside fun u => u.tagIn ["send", "csend"] = true → u.isWellFormedCall = true

/-- A well-formed call has a receiver or nil, a method and arguments that are nodes. -/
theorem WellFormedCalls.call {t : Tree} (hcalls : t.WellFormedCalls)
    (htag : t.tagIn ["send", "csend"] = true) :
    ∃ call, t.call? = some call ∧ AllNodes call.args := by
  have hcall := hcalls t (.self t) htag
  unfold isWellFormedCall at hcall
  split at hcall
  · rename_i call hfound
    exact ⟨call, hfound, List.all_eq_true.mp hcall⟩
  · cases hcall

private theorem WellFormedCalls.isNode_of_operand {tag : String} {receiver method operand : Tree}
    {location : Option Span} (htag : tag ∈ ["send", "csend"])
    (hcalls : (node tag [receiver, method, operand] location).WellFormedCalls) :
    operand.isNode = true := by
  obtain ⟨call, hcall, hnodes⟩ := hcalls.call (by simpa [tagIn, isNode, Tree.tag] using htag)
  obtain ⟨_, hchildren, -⟩ := children_of_call? hcall
  have hargs : call.args = [operand] :=
    (List.cons.inj (List.cons.inj hchildren).2).2.symm
  exact hnodes operand (hargs ▸ List.mem_cons_self)

private theorem WellFormedCalls.of_mem {t c : Tree} (hcalls : t.WellFormedCalls)
    (hc : c ∈ t.children) :
    c.WellFormedCalls :=
  fun u hinside => hcalls u (hinside.of_child hc)

end Tree

namespace Interaction

/-- `Written t cardinality rhs outcomes` says that `t` is the product of `cardinality` and `rhs`,
followed by the outcomes, in order, each behind a `>>`. -/
inductive Written : Tree → Tree → Tree → List Tree → Prop where
  | product {tag : String} {cardinality rhs : Tree} {location : Option Span}
      (htag : tag ∈ ["send", "csend"]) (hcardinality : cardinality.isNode = true)
      (hrhs : rhs.tagIn ["send", "block"] = true) :
      Written (.node tag [cardinality, .symbol "*", rhs] location) cardinality rhs []
  | outcome {tag : String} {t cardinality rhs outcome : Tree} {outcomes : List Tree}
      {location : Option Span} (htag : tag ∈ ["send", "csend"])
      (hwritten : Written t cardinality rhs outcomes) :
      Written (.node tag [t, .symbol ">>", outcome] location) cardinality rhs
        (outcomes ++ [outcome])

private theorem exists_written : (t : Tree) → t.isInteraction = true →
    ∃ cardinality rhs outcomes, Written t cardinality rhs outcomes
  | t, hrecognized => by
    unfold Tree.isInteraction at hrecognized
    split at hrecognized
    · rename_i tag receiver method argument location
      obtain ⟨htag, hoperator⟩ := Bool.and_eq_true_iff.mp hrecognized
      have hcall : tag ∈ ["send", "csend"] := by simpa using htag
      split at hoperator
      · rename_i hproduct
        obtain ⟨hcardinality, hrhs⟩ := Bool.and_eq_true_iff.mp hoperator
        rw [hproduct]
        exact ⟨receiver, argument, [], .product hcall hcardinality hrhs⟩
      · split at hoperator
        · rename_i houtcome
          obtain ⟨cardinality, rhs, outcomes, hwritten⟩ := exists_written receiver hoperator
          rw [houtcome]
          exact ⟨cardinality, rhs, outcomes ++ [argument], .outcome hcall hwritten⟩
        · cases hoperator
    · cases hrecognized

private theorem isInteraction_of_written {t cardinality rhs : Tree} {outcomes : List Tree}
    (hwritten : Written t cardinality rhs outcomes) : t.isInteraction = true := by
  induction hwritten with
  | @product tag _ _ _ htag hcardinality hrhs =>
    have hcall : (tag == "send" || tag == "csend") = true := by simpa using htag
    simp [Tree.isInteraction, hcall, hcardinality, hrhs]
  | @outcome tag _ _ _ _ _ _ htag _ ih =>
    have hcall : (tag == "send" || tag == "csend") = true := by simpa using htag
    simp [Tree.isInteraction, hcall, ih]

/-- The trees that are written like this, and no others, are taken for interactions. -/
theorem isInteraction_iff_written {t : Tree} : t.isInteraction = true ↔
    ∃ cardinality rhs outcomes, Written t cardinality rhs outcomes :=
  ⟨exists_written t, fun ⟨_, _, _, hwritten⟩ => isInteraction_of_written hwritten⟩

/-- There is one way to read an interaction as written like this. -/
theorem Written.unique {t cardinality rhs : Tree} {outcomes : List Tree}
    (hwritten : Written t cardinality rhs outcomes) {cardinality' rhs' : Tree}
    {outcomes' : List Tree} (hother : Written t cardinality' rhs' outcomes') :
    cardinality' = cardinality ∧ rhs' = rhs ∧ outcomes' = outcomes := by
  induction hwritten generalizing outcomes' with
  | @product tag cardinality rhs location =>
    generalize hsame : Tree.node tag [cardinality, .symbol "*", rhs] location = whole at hother
    cases hother with
    | product => simp_all
    | outcome => simp at hsame
  | @outcome tag t cardinality rhs outcome outcomes location _ _ ih =>
    generalize hsame : Tree.node tag [t, .symbol ">>", outcome] location = whole at hother
    cases hother with
    | product => simp at hsame
    | outcome _ hinner =>
      simp only [Tree.node.injEq, List.cons.injEq, and_true, true_and] at hsame
      obtain ⟨rfl, ⟨rfl, rfl⟩, rfl⟩ := hsame
      obtain ⟨rfl, rfl, rfl⟩ := ih hinner
      exact ⟨rfl, rfl, rfl⟩

/-! ## The operands of a product -/

/-- The argument forwards a block. -/
def forwards (arg : Tree) : Bool :=
  arg.hasTag "block_pass"

/-- The forwarded block is the first one among the arguments, and the others keep their order. -/
theorem splitBlockPass_eq (args : List Tree) :
    splitBlockPass args = (args.find? forwards, args.eraseP forwards) := by
  induction args with
  | nil => rfl
  | cons arg rest ih =>
    unfold splitBlockPass
    split
    · rename_i hforwards
      have hblock : forwards arg = true := hforwards
      rw [List.find?_cons_of_pos hblock, List.eraseP_cons_of_pos hblock]
    · rename_i hother
      have hplain : ¬forwards arg = true := hother
      rw [ih, List.find?_cons_of_neg hplain, List.eraseP_cons_of_neg hplain]

/-- What the product of `cardinality` and `rhs` with this outcome is parsed into: `view` has the
normalized cardinality, the receiver and the message of `rhs`, its arguments but for the first block
that is forwarded, this block, and what the outcome stands for. -/
structure Reads (cardinality rhs : Tree) (outcome : Option Tree) (view : Ir.InteractionView) :
    Prop where
  cardinality : ∃ count, Cardinality.resolve cardinality = .ok count ∧
    view.cardinality = count.toTree
  message : ∃ args, rhs.call? = some ⟨some view.receiver, view.message, args⟩ ∧
    view.args = (if args.eraseP forwards = [] then none
      else some (Tree.Build.array (args.eraseP forwards))) ∧
    view.blockPass = args.find? forwards
  outcome : view.outcome = outcome.map outcomeOf

/-- Why the product of `cardinality` and `rhs` is refused: `rhs` has a block of its own or no
receiver, or `cardinality` is none. -/
inductive Refused (cardinality rhs : Tree) : InteractionFault → Option Span → Prop where
  | inlineBlock (hblock : rhs.hasTag "block" = true) :
      Refused cardinality rhs .inlineBlock rhs.location
  | noReceiver {message : String} {args : List Tree}
      (hcall : rhs.call? = some ⟨none, message, args⟩) :
      Refused cardinality rhs .noReceiver rhs.location
  | cardinality {fault : InteractionFault} {place : Option Span}
      (hfailed : Cardinality.resolve cardinality = .error (.interactionSyntax fault place)) :
      Refused cardinality rhs fault place

private theorem exists_fault_of_boundAt (range : Tree) (index : Nat) (which : String) :
    FailsOnly (fun e => ∃ fault place, e = .interactionSyntax fault place)
      (Cardinality.boundAt range index which) := by
  unfold Cardinality.boundAt
  split
  · split
    · exact failsOnly_ok _
    · exact failsOnly_error ⟨_, _, rfl⟩
  · exact failsOnly_error ⟨_, _, rfl⟩

/-- A cardinality is refused as a part of an interaction. -/
theorem exists_fault_of_resolve (t : Tree) :
    FailsOnly (fun e => ∃ fault place, e = .interactionSyntax fault place)
      (Cardinality.resolve t) := by
  unfold Cardinality.resolve
  split
  · exact failsOnly_ok _
  · split
    · exact failsOnly_ok _
    · split
      · exact failsOnly_error ⟨_, _, rfl⟩
      · refine (exists_fault_of_boundAt _ _ _).bind fun lower _ => ?_
        exact (exists_fault_of_boundAt _ _ _).bind fun upper _ => failsOnly_ok _

/-- A product of well-formed operands is refused or built into what it says. -/
theorem build_cases {cardinality rhs : Tree} (hrhs : rhs.tagIn ["send", "block"] = true)
    (hcalls : rhs.WellFormedCalls) (outcome : Option Tree) :
    (∃ fault place, build cardinality rhs outcome = .error (.interactionSyntax fault place) ∧
      Refused cardinality rhs fault place) ∨
    ∃ view : Ir.InteractionView, build cardinality rhs outcome = .ok (some view.build) ∧
      Reads cardinality rhs outcome view := by
  cases hblock : rhs.hasTag "block" with
  | true =>
    refine Or.inl ⟨_, _, ?_, .inlineBlock hblock⟩
    unfold build
    rw [hblock]
    rfl
  | false =>
    have hsend : rhs.tagIn ["send", "csend"] = true := by
      unfold Tree.tagIn Tree.hasTag at *
      simp_all
    obtain ⟨⟨receiver, message, args⟩, hcall, hnodes⟩ := hcalls.call hsend
    cases receiver with
    | none =>
      refine Or.inl ⟨_, _, ?_, .noReceiver hcall⟩
      unfold build
      rw [hblock, hcall]
      rfl
    | some receiver =>
      have hargs : Tree.nodesOf args = args := List.filter_eq_self.mpr hnodes
      cases hcount : Cardinality.resolve cardinality with
      | error e =>
        obtain ⟨fault, place, rfl⟩ := exists_fault_of_resolve cardinality e hcount
        refine Or.inl ⟨_, _, ?_, .cardinality hcount⟩
        rw [build_of_call hcall, hcount]
        rfl
      | ok count =>
        refine Or.inr ⟨⟨count.toTree, receiver, message, if (args.eraseP forwards).isEmpty then none
          else some (Tree.Build.array (args.eraseP forwards)), outcome.map outcomeOf,
          args.find? forwards⟩, ?_, ?_⟩
        · rw [build_of_call hcall, hcount, hargs, splitBlockPass_eq]
          rfl
        · refine ⟨⟨count, hcount, rfl⟩, ⟨args, hcall, ?_, rfl⟩, rfl⟩
          simp only [List.isEmpty_iff]

/-! ## Interactions with at most one outcome -/

/-- The call that is written on a receiver. -/
theorem call?_on {tag method : String} {receiver : Tree} {args : List Tree} {location : Option Span}
    (htag : tag ∈ ["send", "csend"]) (hnode : receiver.isNode = true) :
    (Tree.node tag (receiver :: .symbol method :: args) location).call? =
      some ⟨some receiver, method, args⟩ := by
  have hcall : (tag == "send" || tag == "csend") = true := by simpa using htag
  unfold Tree.call?
  simp only [hcall, if_true, Tree.receiver?_of_isNode hnode, Option.map_some]

/-- The binary call that is written with two operands. -/
theorem binaryCall?_on {tag method : String} {receiver arg : Tree} {location : Option Span}
    (htag : tag ∈ ["send", "csend"]) (hnode : receiver.isNode = true) (harg : arg.isNode = true) :
    (Tree.node tag [receiver, .symbol method, arg] location).binaryCall? =
      some (receiver, method, arg) := by
  unfold Tree.binaryCall?
  rw [call?_on htag hnode]
  simp only [harg, if_true]

/-- A product is its own expectation and has no outcome. -/
theorem parts_product {tag : String} {cardinality rhs : Tree} {location : Option Span}
    (htag : tag ∈ ["send", "csend"]) (hcardinality : cardinality.isNode = true) :
    parts (.node tag [cardinality, .symbol "*", rhs] location) =
      (.node tag [cardinality, .symbol "*", rhs] location, none) := by
  unfold parts
  rw [call?_on htag hcardinality]
  rfl

private theorem parts_outcome {tag : String} {expectation outcome : Tree} {location : Option Span}
    (htag : tag ∈ ["send", "csend"]) (hexpectation : expectation.isNode = true)
    (houtcome : outcome.isNode = true) :
    parts (.node tag [expectation, .symbol ">>", outcome] location) =
      (expectation, some outcome) := by
  unfold parts
  rw [call?_on htag hexpectation]
  simp only [houtcome, if_true]

/-- An interaction whose expectation is a call with these operands is refused or parsed as they
are. -/
private theorem parse_of_parts {t expectation cardinality rhs : Tree} {method : String}
    {outcome : Option Tree} (hrecognized : t.isInteraction = true)
    (hparts : parts t = (expectation, outcome))
    (hcall : expectation.binaryCall? = some (cardinality, method, rhs))
    (hrhs : rhs.tagIn ["send", "block"] = true) (hcalls : rhs.WellFormedCalls) :
    (∃ fault place, parse t = .error (.interactionSyntax fault place) ∧
      Refused cardinality rhs fault place) ∨
    ∃ view : Ir.InteractionView, parse t = .ok (view.build.located t.location) ∧
      Reads cardinality rhs outcome view := by
  unfold parse
  rw [if_pos hrecognized, hparts]
  simp only [hcall]
  rcases build_cases hrhs hcalls outcome with
    ⟨fault, place, hbuild, hrefused⟩ | ⟨view, hbuild, hreads⟩
  · rw [hbuild]
    exact Or.inl ⟨fault, place, rfl, hrefused⟩
  · rw [hbuild]
    exact Or.inr ⟨view, rfl, hreads⟩

/-! ## Interactions with more outcomes -/

/-- Interactions are calls. -/
theorem Written.tagIn {t cardinality rhs : Tree} {outcomes : List Tree}
    (hwritten : Written t cardinality rhs outcomes) : t.tagIn ["send", "csend"] = true := by
  cases hwritten with
  | product htag => simpa [Tree.tagIn, Tree.isNode, Tree.tag] using htag
  | outcome htag => simpa [Tree.tagIn, Tree.isNode, Tree.tag] using htag

private theorem Written.length_children {t cardinality rhs : Tree} {outcomes : List Tree}
    (hwritten : Written t cardinality rhs outcomes) : t.children.length = 3 := by
  cases hwritten <;> rfl

private theorem Written.sizeOf_lt {t cardinality rhs : Tree} {outcomes : List Tree}
    (hwritten : Written t cardinality rhs outcomes) : sizeOf cardinality < sizeOf t := by
  induction hwritten with
  | product => simp +arith
  | outcome _ _ ih =>
    refine Nat.lt_trans ih ?_
    simp +arith

private theorem length_children_of_isWildcard {t : Tree} (hwildcard : t.isWildcard = true) :
    t.children.length = 2 := by
  unfold Tree.isWildcard Tree.bareCall? at hwildcard
  split at hwildcard
  · rename_i method hcall
    obtain ⟨_, hchildren, -⟩ := Tree.children_of_call? hcall
    rw [hchildren]
    rfl
  · cases hwildcard

private theorem tag_begin_of_range? {t found : Tree} (hrange : Cardinality.range? t = some found) :
    t.tag = "begin" := by
  unfold Cardinality.range? at hrange
  split at hrange
  · rfl
  · cases hrange

/-- An interaction that is taken for a cardinality is kept as it is. -/
theorem resolve_of_written {t cardinality rhs : Tree} {outcomes : List Tree} {count : Cardinality}
    (hwritten : Written t cardinality rhs outcomes) (hcount : Cardinality.resolve t = .ok count) :
    count.toTree = t := by
  rcases Cardinality.resolve_cases hcount with
    ⟨hwildcard, -⟩ | ⟨-, -, rfl⟩ | ⟨found, _, _, hrange, -⟩
  · have hlength := length_children_of_isWildcard hwildcard
    rw [hwritten.length_children] at hlength
    cases hlength
  · rfl
  · have htag := hwritten.tagIn
    simp [Tree.tagIn, tag_begin_of_range? hrange] at htag

/-- The cardinality of an interaction is never written like the interaction itself. -/
theorem Written.toTree_ne {t cardinality rhs : Tree} {outcomes : List Tree} {count : Cardinality}
    (hwritten : Written t cardinality rhs outcomes)
    (hcount : Cardinality.resolve cardinality = .ok count) : count.toTree ≠ t := by
  rcases Cardinality.resolve_cases hcount with
    ⟨-, rfl⟩ | ⟨-, -, rfl⟩ | ⟨_, lower, upper, -, -, -, rfl⟩
  · rintro rfl
    cases hwritten.length_children
  · rintro rfl
    exact Nat.lt_irrefl _ hwritten.sizeOf_lt
  · rintro rfl
    cases hwritten.tagIn

/-- The last outcome is taken off, be it a node or not. -/
private theorem expectation_eq {tag : String} {expectation outcome : Tree} {location : Option Span}
    (htag : tag ∈ ["send", "csend"]) (hexpectation : expectation.isNode = true) :
    (parts (.node tag [expectation, .symbol ">>", outcome] location)).1 = expectation := by
  unfold parts
  rw [call?_on htag hexpectation]
  rfl

/-- What is left of an interaction with more than one outcome has a shorter one as its left
operand. -/
private theorem exists_left_of_two_outcomes {t cardinality rhs : Tree} {outcomes : List Tree}
    {operands : Tree × String × Tree} (hwritten : Written t cardinality rhs outcomes)
    (hmany : 1 < outcomes.length) (hoperands : (parts t).1.binaryCall? = some operands) :
    ∃ shorter, Written operands.1 cardinality rhs shorter := by
  cases hwritten with
  | product => cases hmany
  | outcome htag hexpectation =>
    rw [expectation_eq htag (Tree.isNode_of_tagIn hexpectation.tagIn)] at hoperands
    cases hexpectation with
    | product => simp at hmany
    | @outcome _ inner _ _ _ shorter _ htag hinner =>
      have hleft : operands.1 = inner := by
        unfold Tree.binaryCall? at hoperands
        rw [call?_on htag (Tree.isNode_of_tagIn hinner.tagIn)] at hoperands
        dsimp only at hoperands
        split at hoperands
        · rw [← Option.some.inj hoperands]
        · cases hoperands
      exact ⟨shorter, hleft ▸ hinner⟩

/-- An interaction with more than one outcome is never parsed into what its product and its last
outcome say. -/
theorem not_reads_of_two_outcomes {t cardinality rhs : Tree} {outcomes : List Tree}
    (hwritten : Written t cardinality rhs outcomes) (hmany : 1 < outcomes.length)
    (view : Ir.InteractionView) (hparsed : parse t = .ok (view.build.located t.location)) :
    ¬Reads cardinality rhs outcomes.getLast? view := by
  intro hreads
  obtain ⟨own, hown, hcardinality⟩ := hreads.cardinality
  rcases operands_of_parse hparsed with
    hsame | ⟨found, operands, count, -, hoperands, hcount, hwrong, hsame⟩
  · have htag := hwritten.tagIn
    rw [← hsame] at htag
    cases htag
  · obtain ⟨shorter, hleft⟩ := exists_left_of_two_outcomes hwritten hmany hoperands
    have hkept : view.cardinality = found.cardinality :=
      (List.cons.inj (Tree.node.inj hsame).2.1).1
    rw [hcardinality, hwrong, resolve_of_written hleft hcount] at hkept
    exact hleft.toTree_ne hown hkept

/-! ## Interactions with any number of outcomes -/

/-- Every interaction is a product followed by outcomes. If all of its calls are well formed and it
has at most one outcome, it is refused for one of the operands of its product or parsed into what
the product and the outcome say, and it is never handed back. With more outcomes it is never parsed
into what the product and the last outcome say. -/
theorem reads_of_isInteraction {t : Tree} (hrecognized : t.isInteraction = true)
    (hcalls : t.WellFormedCalls) :
    ∃ cardinality rhs outcomes, Written t cardinality rhs outcomes ∧
      (outcomes.length ≤ 1 →
        (∃ fault place, parse t = .error (.interactionSyntax fault place) ∧
          Refused cardinality rhs fault place) ∨
        ∃ view : Ir.InteractionView, parse t = .ok (view.build.located t.location) ∧
          Reads cardinality rhs outcomes.getLast? view) ∧
      (1 < outcomes.length → ∀ view : Ir.InteractionView,
        parse t = .ok (view.build.located t.location) →
        ¬ Reads cardinality rhs outcomes.getLast? view) := by
  obtain ⟨cardinality, rhs, outcomes, hwritten⟩ := isInteraction_iff_written.mp hrecognized
  refine ⟨cardinality, rhs, outcomes, hwritten, fun hshort => ?_,
    fun hmany view hparsed => not_reads_of_two_outcomes hwritten hmany view hparsed⟩
  cases hwritten with
  | @product tag _ _ location htag hcardinality hrhs =>
    have hmem : rhs ∈ (Tree.node tag [cardinality, .symbol "*", rhs] location).children :=
      .tail _ (.tail _ (.head _))
    exact parse_of_parts hrecognized (parts_product htag hcardinality)
      (binaryCall?_on htag hcardinality (Tree.isNode_of_tagIn hrhs)) hrhs (hcalls.of_mem hmem)
  | @outcome tag expectation _ _ outcome _ location htag hexpectation =>
    have houtcome : outcome.isNode = true := hcalls.isNode_of_operand htag
    cases hexpectation with
    | @product inner _ _ place hinner hcardinality hrhs =>
      have hproduct := hcalls.of_mem (.head _)
      have hmem : rhs ∈ (Tree.node inner [cardinality, .symbol "*", rhs] place).children :=
        .tail _ (.tail _ (.head _))
      exact parse_of_parts hrecognized (parts_outcome htag rfl houtcome)
        (binaryCall?_on hinner hcardinality (Tree.isNode_of_tagIn hrhs)) hrhs
        (hproduct.of_mem hmem)
    | outcome _ _ => simp at hshort

/-- The product of a count and a message to `s`, followed by these outcomes. -/
def answered (outcomes : List Tree) : Tree :=
  let message := Tree.Build.call (some (Tree.Build.lvar "s")) "receive"
    [Tree.Build.fresh "block_pass" [Tree.Build.lvar "handler"], Tree.Build.int 5]
  outcomes.foldl (fun t outcome => Tree.Build.call (some t) ">>" [outcome])
    (Tree.Build.call (some (Tree.Build.int 1)) "*" [message])

/-- An interaction with one outcome, a forwarded block and an argument is parsed into its parts. -/
theorem reads_of_isInteraction_answered :
    let t := answered [Tree.Build.int 2]
    t.isInteraction = true ∧ t.WellFormedCalls ∧
      ∃ rhs, Written t (Tree.Build.int 1) rhs [Tree.Build.int 2] ∧
        ((∃ fault place, parse t = .error (.interactionSyntax fault place) ∧
            Refused (Tree.Build.int 1) rhs fault place) ∨
          ∃ view : Ir.InteractionView, parse t = .ok (view.build.located t.location) ∧
            Reads (Tree.Build.int 1) rhs (some (Tree.Build.int 2)) view) := by
  have hrecognized : (answered [Tree.Build.int 2]).isInteraction = true := by decide
  have hcalls : (answered [Tree.Build.int 2]).WellFormedCalls := by decide
  obtain ⟨cardinality, rhs, outcomes, hwritten, hread, -⟩ :=
    reads_of_isInteraction hrecognized hcalls
  have hsample : ∃ message, Written (answered [Tree.Build.int 2]) (Tree.Build.int 1) message
      ([] ++ [Tree.Build.int 2]) :=
    ⟨_, .outcome (by decide) (.product (by decide) (by decide) (by decide))⟩
  obtain ⟨message, hsample⟩ := hsample
  obtain ⟨rfl, rfl, rfl⟩ := hsample.unique hwritten
  exact ⟨hrecognized, hcalls, _, hwritten, hread (Nat.le_refl 1)⟩

/-- With two outcomes an interaction is handed back, or, if the first outcome is a call, that is
taken for the message and the product for the cardinality. -/
theorem parse_answered_twice :
    let plain := answered [Tree.Build.int 2, Tree.Build.int 2]
    let calling := answered [Tree.Build.call (some (Tree.Build.lvar "x")) "y" [], Tree.Build.int 2]
    (plain.isInteraction = true ∧ plain.WellFormedCalls ∧ parse plain = .ok plain ∧
      Ir.InteractionView.of? plain = none) ∧
    calling.isInteraction = true ∧ calling.WellFormedCalls ∧
      ∃ view : Ir.InteractionView, parse calling = .ok view.build ∧
        view.cardinality = answered [] ∧ view.receiver = Tree.Build.lvar "x" ∧
        view.message = "y" := by
  refine ⟨⟨by decide, by decide, rfl, rfl⟩, by decide, by decide, ?_⟩
  exact ⟨⟨answered [], Tree.Build.lvar "x", "y", none,
    some (Ir.buildReturns (Tree.Build.int 2)), none⟩, rfl, rfl, rfl, rfl⟩

end Interaction

end PhasedTests
