import PhasedTests.Ir.View

/-!
# Views of built nodes

A node that was built from the fields of a view is viewed as these fields again, wherever it was
placed. Host nodes, whose tags are not reserved, have no view.
-/

namespace PhasedTests

namespace Tree

/-- All of the trees are nodes. -/
def AllNodes (trees : List Tree) : Prop :=
  ∀ t ∈ trees, t.isNode = true

/-- A node has its own tag. -/
theorem hasTag_self (tag : String) (children : List Tree) (location : Option Span) :
    (node tag children location).hasTag tag = true := by
  simp [hasTag, isNode, Tree.tag]

/-- Children that are nodes are the child nodes. -/
theorem childNodes_of_allNodes {tag : String} {children : List Tree} {location : Option Span}
    (hnodes : AllNodes children) : (node tag children location).childNodes = children :=
  List.filter_eq_self.mpr hnodes

/-- The first child is at index zero if it is a node. -/
theorem nodeAt?_zero {tag : String} {first : Tree} {rest : List Tree} {location : Option Span}
    (hnode : first.isNode = true) :
    (node tag (first :: rest) location).nodeAt? 0 = some first := by
  rw [nodeAt?, children, List.getElem?_cons_zero, Option.filter_some, if_pos hnode]

/-- The children behind the first one are at the next indices. -/
theorem nodeAt?_succ (tag : String) (first : Tree) (rest : List Tree) (location : Option Span)
    (index : Nat) : (node tag (first :: rest) location).nodeAt? (index + 1) =
      (node tag rest location).nodeAt? index := by
  rw [nodeAt?, nodeAt?, children, children, List.getElem?_cons_succ]

/-- What is found at an index is a node. -/
theorem isNode_of_nodeAt? {t found : Tree} {index : Nat} (hfound : t.nodeAt? index = some found) :
    found.isNode = true :=
  (Option.filter_eq_some_iff.mp hfound).2

/-- The node in an optional place is read back. -/
theorem nodeAt?_optional {tag : String} {part : Option Tree} {rest : List Tree}
    {location : Option Span} (hnode : ∀ t ∈ part, t.isNode = true) :
    (node tag (Build.optional part :: rest) location).nodeAt? 0 = part := by
  cases part with
  | none => rfl
  | some t => exact nodeAt?_zero (hnode t rfl)

end Tree

namespace Phase

/-- The tag of a phase stands for that phase. -/
theorem ofIrTag?_irTag? {phase : Phase} (hintroduced : phase ∈ introduced)
    (hwhere : phase ≠ .where) : ofIrTag? (phase.irTag?.getD "") = some phase := by
  revert hintroduced hwhere
  cases phase <;> decide

end Phase

namespace Ir

/-- The tags of the nodes of a parsed test. -/
def reservedTags : List String :=
  ["ps_test", "ps_def", "ps_body", "ps_where", "ps_interaction", "ps_binary_statement",
   "ps_statement", "ps_raises", "ps_returns", "ps_stub_raises", "ps_given", "ps_when", "ps_then",
   "ps_expect", "ps_cleanup"]

/-- Only reserved tags have views. -/
theorem View.of?_eq_none {t : Tree} (htag : t.tag ∉ reservedTags) : View.of? t = none := by
  have hphase : Phase.ofIrTag? t.tag = none := by
    unfold Phase.ofIrTag?
    rw [List.find?_eq_none]
    intro phase hmem hsame
    apply htag
    rw [beq_iff_eq] at hsame
    have htags : ∀ phase ∈ Phase.introduced.filter (· ≠ .where), ∀ tag ∈ phase.irTag?,
        tag ∈ reservedTags := by decide
    exact htags phase hmem _ hsame
  unfold View.of?
  split
  all_goals first
    | (rename_i hsame; rw [hsame] at htag; exact absurd (by decide) htag)
    | (rw [PhaseView.of?, hphase]; rfl)

variable {place : Option Span}

/-- A phase is read back from its node. -/
theorem PhaseView.of?_build {view : PhaseView} (hintroduced : view.phase ∈ Phase.introduced)
    (hwhere : view.phase ≠ .where) (hnodes : Tree.AllNodes view.statements) :
    PhaseView.of? (view.build.located place) = some view := by
  unfold PhaseView.of?
  change (Phase.ofIrTag? (view.phase.irTag?.getD "")).map _ = _
  rw [Phase.ofIrTag?_irTag? hintroduced hwhere]
  change some (PhaseView.mk view.phase (Tree.node _ view.statements place).childNodes) = _
  rw [Tree.childNodes_of_allNodes hnodes]

/-- A data table is read back from its node. -/
theorem TableView.of?_build {view : TableView} (hrows : Tree.AllNodes view.rows) :
    TableView.of? (view.build.located place) = some view := by
  have hnames : (view.header.map Tree.symbol).filterMap Tree.symbol? = view.header := by
    rw [List.filterMap_map]
    exact List.filterMap_some
  change TableView.of? (.node "ps_where"
    (.node "ps_where_header" (view.header.map Tree.symbol) none :: view.rows) place) = some view
  unfold TableView.of?
  rw [if_pos (Tree.hasTag_self _ _ _), Tree.nodeAt?_zero rfl, Tree.childNodes_of_allNodes]
  · simp only [Tree.hasTag_self, if_true, Tree.children, hnames, List.drop_succ_cons,
      List.drop_zero]
  · exact List.forall_mem_cons.mpr ⟨rfl, hrows⟩

/-- The fields of an interaction that have to be nodes are. -/
structure InteractionView.Proper (view : InteractionView) : Prop where
  cardinality : view.cardinality.isNode = true
  receiver : view.receiver.isNode = true
  args : ∀ t ∈ view.args, t.isNode = true
  outcome : ∀ t ∈ view.outcome, t.isNode = true
  blockPass : ∀ t ∈ view.blockPass, t.isNode = true

/-- An interaction is read back from its node. -/
theorem InteractionView.of?_build {view : InteractionView} (hproper : view.Proper) :
    InteractionView.of? (view.build.located place) = some view := by
  change InteractionView.of? (.node "ps_interaction" [view.cardinality, view.receiver,
    .symbol view.message, Tree.Build.optional view.args, Tree.Build.optional view.outcome,
    Tree.Build.optional view.blockPass] place) = some view
  unfold InteractionView.of?
  rw [if_pos (by rw [Tree.hasTag_self]; rfl)]
  simp only [Tree.nodeAt?_succ, Tree.nodeAt?_zero hproper.cardinality,
    Tree.nodeAt?_zero hproper.receiver, Tree.nodeAt?_optional hproper.args,
    Tree.nodeAt?_optional hproper.outcome, Tree.nodeAt?_optional hproper.blockPass]
  rfl

/-- The node of an interaction has its view. -/
theorem View.of?_interaction {view : InteractionView} (hproper : view.Proper) :
    View.of? (view.build.located place) = some (.interaction view) := by
  change (InteractionView.of? (view.build.located place)).map View.interaction = _
  rw [InteractionView.of?_build hproper]
  rfl

/-- The node of a comparison has its view. -/
theorem View.of?_binary {view : BinaryView} (hlhs : view.lhs.isNode = true)
    (hrhs : view.rhs.isNode = true) :
    View.of? (view.build.located place) = some (.binary view) := by
  change (BinaryView.of? (.node "ps_binary_statement"
    [view.lhs, .symbol view.operator, view.rhs] place)).map View.binary = _
  unfold BinaryView.of?
  rw [if_pos (Tree.hasTag_self _ _ _)]
  simp only [Tree.nodeAt?_succ, Tree.nodeAt?_zero hlhs, Tree.nodeAt?_zero hrhs]
  rfl

/-- The node of a condition has its view. -/
theorem View.of?_statement {view : StatementView} (hnode : view.expression.isNode = true) :
    View.of? (view.build.located place) = some (.statement view) := by
  change (StatementView.of? (.node "ps_statement"
    [view.expression, .text view.source] place)).map View.statement = _
  unfold StatementView.of?
  rw [if_pos (Tree.hasTag_self _ _ _)]
  simp only [Tree.nodeAt?_zero hnode]
  rfl

/-- An expected exception is read back from its node. -/
theorem RaisesView.of?_build {view : RaisesView} (hnode : view.exception.isNode = true) :
    RaisesView.of? (view.build.located place) = some view := by
  change RaisesView.of? (.node "ps_raises"
    (view.exception :: (view.variableName.map .symbol).toList) place) = _
  unfold RaisesView.of?
  rw [if_pos (Tree.hasTag_self _ _ _), Tree.nodeAt?_zero hnode]
  obtain ⟨exception, variableName⟩ := view
  cases variableName <;> rfl

/-- The node of an expected exception has its view. -/
theorem View.of?_raises {view : RaisesView} (hnode : view.exception.isNode = true) :
    View.of? (view.build.located place) = some (.raises view) := by
  change (RaisesView.of? (view.build.located place)).map View.raises = _
  rw [RaisesView.of?_build hnode]
  rfl

end Ir

end PhasedTests
