import PhasedTests.Proofs.Generate.Body

/-!
# What a cardinality means

The number of calls that a generated expectation lets through is the number that was written. The
written cardinality is resolved when the interaction is parsed, stored in its inclusive form and
resolved once more when the mock is generated; on this way no bound is lost and an excluded upper
bound is lowered exactly once.
-/

namespace PhasedTests

open Tree.Build

/-- An assignment of integers to expressions under which the bounds that are generated mean what
they say: zero, and one below an excluded upper bound. -/
structure Valuation where
  value : Tree → Int
  zero : value (int 0) = 0
  pred : ∀ upper, value (call (some upper) "-" [int 1]) = value upper - 1

namespace Bound

/-- Whether a bound, if it restricts at all, does so by a tree that passes a test. -/
def respects (test : Tree → Bool) : Bound → Bool
  | .any => true
  | .value bound => test bound

private theorem respects_ofTree (test : Tree → Bool) (t : Tree) :
    (ofTree t).respects test = (t.isWildcard || test t) := by
  unfold ofTree
  split
  · rename_i hwildcard
    rw [hwildcard]
    rfl
  · rename_i hwildcard
    rw [Bool.eq_false_iff.mpr hwildcard]
    rfl

private theorem respects_pred (test : Tree → Bool) (bound : Bound) :
    bound.pred.respects test = bound.respects fun t => test (call (some t) "-" [int 1]) := by
  cases bound <;> rfl

end Bound

namespace Cardinality

/-- A bound of a range is read off the child at its index. -/
theorem ofTree_of_boundAt {range : Tree} {index : Nat} {which : String} {bound : Bound}
    (hbound : boundAt range index which = .ok bound) :
    ∃ t, range.children[index]? = some t ∧ bound = .ofTree t := by
  unfold boundAt at hbound
  split at hbound
  · rename_i t hfound
    split at hbound
    · exact ⟨t, (Option.filter_eq_some_iff.mp hfound).1, (Except.ok.inj hbound).symm⟩
    · cases hbound
  · cases hbound

/-- A range stands alone between parentheses. -/
theorem eq_of_range? {t range : Tree} (hrange : range? t = some range) :
    ∃ place, t = .node "begin" [range] place ∧ range.tagIn ["irange", "erange"] = true := by
  unfold range? at hrange
  split at hrange
  · split at hrange
    · rename_i htag
      obtain rfl := Option.some.inj hrange
      exact ⟨_, rfl, htag⟩
    · cases hrange
  · cases hrange

end Cardinality

namespace Valuation

/-! ## Assignments -/

/-- The value of an expression when integer literals and differences that are generated are
evaluated and everything that was written has the value it is assigned. -/
def evaluate (assignment : Tree → Int) : Tree → Int
  | .node "int" [.leaf (.int literal)] none => literal.toInt
  | .node "send" [left, .leaf (.symbol "-"), .node "int" [.leaf (.int literal)] none] none =>
    evaluate assignment left - literal.toInt
  | t => assignment t

/-- The valuation of an assignment. -/
def ofAssignment (assignment : Tree → Int) : Valuation where
  value := evaluate assignment
  zero := by
    unfold int fresh evaluate
    rfl
  pred := by
    intro upper
    unfold call int fresh Tree.Build.optional
    rw [evaluate]
    rfl

/-! ## Written cardinalities -/

variable (values : Valuation) (count : Nat)

/-- Whether a number of calls is allowed by a written cardinality: `_` allows any number, a range
the numbers between its bounds, of which `_` does not restrict, and anything else just its own
value. -/
def allows : Tree → Bool
  | .node "begin" [.node "irange" (lower :: upper :: _) _] _ =>
    (lower.isWildcard || values.value lower ≤ count) &&
      (upper.isWildcard || count ≤ values.value upper)
  | .node "begin" [.node "erange" (lower :: upper :: _) _] _ =>
    (lower.isWildcard || values.value lower ≤ count) &&
      (upper.isWildcard || count < values.value upper)
  | t => t.isWildcard || count = values.value t

/-- Whether a number of calls is allowed by a resolved cardinality. -/
def allowsResolved : Cardinality → Bool
  | .any => true
  | .exact exactly => count = values.value exactly
  | .range lower upper =>
    lower.respects (values.value · ≤ count) && upper.respects (count ≤ values.value ·)

/-- The upper bound of a resolved range restricts as the written one does: an excluded bound is
lowered once. -/
theorem respects_upper (range upper : Tree) :
    (if range.hasTag "erange" then (Bound.ofTree upper).pred else .ofTree upper).respects
        (count ≤ values.value ·) =
      (upper.isWildcard ||
        if range.hasTag "erange" then decide (count < values.value upper)
        else decide (count ≤ values.value upper)) := by
  split
  · rw [Bound.respects_pred, Bound.respects_ofTree, values.pred]
    congr 1
    rw [decide_eq_decide]
    omega
  · rw [Bound.respects_ofTree]

/-- Resolving keeps the meaning of a cardinality. -/
theorem allowsResolved_of_resolve {t : Tree} {cardinality : Cardinality}
    (hresolve : Cardinality.resolve t = .ok cardinality) :
    values.allowsResolved count cardinality = values.allows count t := by
  rcases Cardinality.resolve_cases hresolve with
    ⟨hwildcard, rfl⟩ | ⟨hwildcard, hcount, rfl⟩ | ⟨range, low, high, hrange, hlow, hhigh, rfl⟩
  · unfold allows
    split
    · cases hwildcard
    · cases hwildcard
    · rw [hwildcard]
      rfl
  · unfold allows
    split
    · cases hcount
    · cases hcount
    · rw [hwildcard]
      rfl
  · obtain ⟨lower, hlower, rfl⟩ := Cardinality.ofTree_of_boundAt hlow
    obtain ⟨upper, hupper, rfl⟩ := Cardinality.ofTree_of_boundAt hhigh
    obtain ⟨place, rfl, htag⟩ := Cardinality.eq_of_range? hrange
    change (_ && _) = _
    rw [Bound.respects_ofTree, respects_upper]
    -- Both bounds are children of the range, which therefore has the shape that `allows` reads.
    match range, hlower, hupper with
    | .node tag (_ :: _ :: rest) inner, rfl, rfl =>
      have hkind : tag = "irange" ∨ tag = "erange" := by
        simpa [Tree.tagIn, Tree.isNode, Tree.tag] using htag
      rcases hkind with rfl | rfl <;> rfl

/-! ## Generated chains -/

/-- Whether a number of calls meets what one call of a chain requires. What a message is given and
what it is answered requires nothing, and other calls are in no chain. -/
def meets (message : String) (args : List Tree) : Bool :=
  match message, args with
  | "at_least", [lower] => values.value lower ≤ count
  | "at_most", [upper] => count ≤ values.value upper
  | "times", [exactly] => count = values.value exactly
  | _, _ => ["with", "returns", "raises"].contains message

/-- Whether an expectation admits a number of calls: all that its chain requires behind
`expects`. -/
def admits : Tree → Bool
  | .node "send" (chain :: .leaf (.symbol message) :: args) _ =>
    message == "expects" || (values.meets count message args && admits chain)
  | _ => false

private theorem admits_located (t : Tree) (place : Option Span) :
    values.admits count (t.located place) = values.admits count t := by
  cases t with
  | leaf value => rfl
  | node tag children location =>
    unfold Tree.located admits
    split <;> simp_all

/-- A call in a chain adds its own requirement. -/
theorem admits_call {message : String} (hmessage : message ≠ "expects") (chain : Tree)
    (args : List Tree) : values.admits count (call (some chain) message args) =
      (values.meets count message args && values.admits count chain) := by
  change (message == "expects" || _) = _
  rw [beq_false_of_ne hmessage, Bool.false_or]
  rfl

private theorem admits_expectMessage (view : Ir.InteractionView) :
    values.admits count (Generate.expectMessage view) = true := by
  unfold Generate.expectMessage
  dsimp only
  split
  · rw [admits_call values count (by decide)]
    rfl
  · rfl

private theorem admits_answerWith (chain : Tree) (outcome : Option Tree) :
    values.admits count (Generate.answerWith chain outcome) = values.admits count chain := by
  unfold Generate.answerWith
  split
  · rw [admits_call values count (by decide)]
    rfl
  · rw [admits_call values count (by decide)]
    rfl
  · rfl

/-- The chain of a cardinality admits what the cardinality allows. -/
theorem admits_requireCount (chain : Tree) (cardinality : Cardinality) :
    values.admits count (Generate.requireCount chain cardinality) =
      (values.allowsResolved count cardinality && values.admits count chain) := by
  -- A lower bound that does not restrict is generated as zero.
  have hzero : values.meets count "at_least" [int 0] = true := by
    change decide (values.value (int 0) ≤ count) = true
    rw [values.zero]
    exact decide_eq_true (Int.natCast_nonneg count)
  unfold Generate.requireCount Generate.chained
  split
  · rw [admits_call values count (by decide), hzero]
    rfl
  · rw [admits_call values count (by decide)]
    rfl
  · rw [admits_call values count (by decide), hzero]
    rfl
  · rw [admits_call values count (by decide)]
    change _ = ((_ && true) && _)
    rw [Bool.and_true]
    rfl
  · rw [admits_call values count (by decide), admits_call values count (by decide), hzero]
    rfl
  · rw [admits_call values count (by decide), admits_call values count (by decide),
      ← Bool.and_assoc, Bool.and_comm (values.meets count "at_most" _)]
    rfl

end Valuation

namespace Generate

/-- The expectation that an interaction is generated into admits just the numbers of calls that the
left-hand side allows. The cardinality that is stored in between is resolved as the one that was
written. -/
theorem admits_mock_of_parse {t lhs rhs receiver : Tree} {operator message : String}
    {args : List Tree} {cardinality : Cardinality} (hinteraction : t.isInteraction = true)
    (hoperands : (Interaction.parts t).1.binaryCall? = some (lhs, operator, rhs))
    (hcall : rhs.call? = some ⟨some receiver, message, args⟩)
    (hresolve : Cardinality.resolve lhs = .ok cardinality) (ordinal : Nat) :
    ∃ parsed view built chain,
      Interaction.parse t = .ok parsed ∧ Ir.View.of? parsed = some (.interaction view) ∧
      view.cardinality = cardinality.toTree ∧
      Cardinality.resolve view.cardinality = .ok cardinality ∧
      mock view parsed.location ordinal = .ok built ∧ built.setup.head? = some chain ∧
      ∀ (values : Valuation) (count : Nat),
        values.admits count chain = values.allows count lhs := by
  obtain ⟨interaction, hbuild⟩ : ∃ interaction,
      Interaction.build lhs rhs (Interaction.parts t).2 = .ok (some interaction) := by
    rw [Interaction.build_of_call hcall, hresolve]
    exact ⟨_, rfl⟩
  obtain ⟨view, resolved, hproper, hsame, hstored, rfl⟩ := Interaction.of_build hbuild
  obtain rfl := Except.ok.inj (hresolve.symm.trans hsame)
  have hagain := (Cardinality.resolve_toTree hresolve).2
  rw [← hstored] at hagain
  have hparse : Interaction.parse t = .ok (view.build.located t.location) := by
    unfold Interaction.parse
    rw [if_pos hinteraction]
    dsimp only
    rw [hoperands]
    dsimp only
    rw [hbuild]
    rfl
  refine ⟨_, view, _, _, hparse, Ir.View.of?_interaction hproper, hstored, hagain,
    mock_eq hagain _ ordinal, rfl, ?_⟩
  intro values count
  calc values.admits count (expectation view cardinality (view.build.located t.location).location)
      = values.admits count (requireCount (expectMessage view) cardinality) := by
        unfold expectation
        rw [Valuation.admits_located, Valuation.admits_answerWith]
    _ = values.allowsResolved count cardinality := by
        rw [Valuation.admits_requireCount, Valuation.admits_expectMessage, Bool.and_true]
    _ = values.allows count lhs := values.allowsResolved_of_resolve count hresolve

/-- Closing a door at least once and fewer than three times. -/
theorem admits_mock_of_parse_exclusive :
    let range := fresh "begin" [fresh "erange" [int 1, lvar "most"]]
    let statement := call (some range) "*" [call (some (lvar "door")) "close" []]
    ∃ parsed view built chain,
      Interaction.parse statement = .ok parsed ∧ Ir.View.of? parsed = some (.interaction view) ∧
      mock view parsed.location 0 = .ok built ∧ built.setup.head? = some chain ∧
      ∀ count : Nat, (Valuation.ofAssignment fun _ => 3).admits count chain =
        (decide (1 ≤ count) && decide (count < 3)) := by
  intro range statement
  have hresolve : ∃ cardinality, Cardinality.resolve range = .ok cardinality := ⟨_, rfl⟩
  obtain ⟨cardinality, hresolve⟩ := hresolve
  obtain ⟨parsed, view, built, chain, hparse, hview, -, -, hbuilt, hchain, hadmits⟩ :=
    @admits_mock_of_parse statement range _ _ _ _ _ _ rfl rfl rfl hresolve 0
  refine ⟨parsed, view, built, chain, hparse, hview, hbuilt, hchain, fun count => ?_⟩
  rw [hadmits]
  have hvalues : (Valuation.ofAssignment fun _ => 3).allows count range =
      (decide ((1 : Int) ≤ count) && decide ((count : Int) < 3)) := rfl
  rw [hvalues, Bool.eq_iff_iff, Bool.and_eq_true, Bool.and_eq_true]
  simp only [decide_eq_true_eq]
  omega

end Generate

end PhasedTests
