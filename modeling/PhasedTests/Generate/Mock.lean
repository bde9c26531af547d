import PhasedTests.Interaction.Cardinality
import PhasedTests.Ir.View

/-!
# Mock expectations

An interaction becomes a chain of calls that must be in place before the action runs. A forwarded
block is captured beside it and compared after the action.
-/

namespace PhasedTests.Generate

open Tree.Build

/-- The statements that one interaction becomes. -/
structure Mock where
  /-- Run before the action. -/
  setup : List Tree
  /-- Stay where the interaction stood. -/
  verification : List Tree

/-- The local that holds the block captured for an interaction. -/
def captureName (ordinal : Nat) : String :=
  "__phasespec_blk_" ++ toString ordinal

/-- The chain with one more call. -/
def chained (receiver : Tree) (method : String) (argument : Tree) : Tree :=
  call (some receiver) method [argument]

/-- The chain that requires a cardinality. -/
def requireCount (chain : Tree) : Cardinality → Tree
  | .any => chained chain "at_least" (int 0)
  | .exact count => chained chain "times" count
  | .range .any .any => chained chain "at_least" (int 0)
  | .range (.value lower) .any => chained chain "at_least" lower
  | .range .any (.value upper) => chained (chained chain "at_least" (int 0)) "at_most" upper
  | .range (.value lower) (.value upper) =>
    chained (chained chain "at_least" lower) "at_most" upper

/-- The chain that answers with an outcome. -/
def answerWith (chain : Tree) (outcome : Option Tree) : Tree :=
  match outcome.bind Ir.View.of? with
  | some (.returns value) => call (some chain) "returns" [value]
  | some (.stubRaises args) => call (some chain) "raises" args
  | _ => chain

/-- The chain that expects a message with its arguments. -/
def expectMessage (view : Ir.InteractionView) : Tree :=
  let chain := call (some view.receiver) "expects" [sym view.message]
  match view.args with
  | some args => call (some chain) "with" args.children
  | none => chain

/-- The capture of a forwarded block and its comparison with the block that was forwarded. -/
def captureBlock (view : Ir.InteractionView) (ordinal : Nat) (forwarded : Tree) : Tree × Tree :=
  let blockCapture := constant (some (constant none "PhaseSpec")) "BlockCapture"
  (lvasgn (captureName ordinal)
      (call (some blockCapture) "capture" [view.receiver, sym view.message]),
    call none "assert_same" [forwarded, call (some (lvar (captureName ordinal))) "call" []])

/-- The statements of an interaction; `place` is that of its node and `ordinal` its number in its
phase. -/
def mock (view : Ir.InteractionView) (place : Option Span) (ordinal : Nat) :
    Except TransformError Mock := do
  let cardinality ← Cardinality.resolve view.cardinality
  let chain := answerWith (requireCount (expectMessage view) cardinality) view.outcome
  let expectation := chain.located place
  match view.blockPass.bind fun pass => pass.nodeAt? 0 with
  | none => return ⟨[expectation], []⟩
  | some forwarded =>
    let (capture, comparison) := captureBlock view ordinal forwarded
    return ⟨[expectation, capture], [comparison]⟩

end PhasedTests.Generate
