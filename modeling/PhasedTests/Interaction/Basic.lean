import PhasedTests.Interaction.Cardinality
import PhasedTests.Ir.View

/-!
# Interactions

`cardinality * receiver.message(args) >> outcome` in a Then phase says how often a collaborator
must receive a message, with which arguments and what it answers. Reading one takes the operands
apart and keeps them as they are.
-/

namespace PhasedTests

namespace Tree

/-- Whether the tree is a product with a call or a block on its right, or such a product followed
by any number of outcomes. -/
def isInteraction : Tree → Bool
  | node tag [receiver, leaf (.symbol method), argument] _ =>
    (tag == "send" || tag == "csend") &&
      if method = "*" then receiver.isNode && argument.tagIn ["send", "block"]
      else if method = ">>" then receiver.isInteraction
      else false
  | _ => false

end Tree

namespace Interaction

/-- The stubbed answer that stands for an outcome: an exception for `raises(...)`, otherwise the
value itself. -/
def outcomeOf (t : Tree) : Tree :=
  let built := match t.call? with
    | some ⟨none, "raises", args⟩ => Ir.buildStubRaises args
    | _ => Ir.buildReturns t
  built.located t.location

/-- The expectation and the outcome of an interaction, which is the argument of its last `>>`. -/
def parts (t : Tree) : Tree × Option Tree :=
  match t.call? with
  | some ⟨some receiver, ">>", argument :: _⟩ =>
    (receiver, if argument.isNode then some argument else none)
  | _ => (t, none)

/-- Splits the arguments of a message: the first forwarded block, and all others in order. -/
def splitBlockPass : List Tree → Option Tree × List Tree
  | [] => (none, [])
  | arg :: rest =>
    if arg.hasTag "block_pass" then (some arg, rest)
    else
      let (found, others) := splitBlockPass rest
      (found, arg :: others)

/-- The parsed interaction with this left-hand side, message call and outcome. -/
def build (cardinality rhs : Tree) (outcome : Option Tree) :
    Except TransformError (Option Tree) := do
  if rhs.hasTag "block" then .error (.interactionSyntax .inlineBlock rhs.location)
  match rhs.call? with
  | none => return none
  | some ⟨none, _, _⟩ => .error (.interactionSyntax .noReceiver rhs.location)
  | some ⟨some receiver, message, args⟩ =>
    let count ← Cardinality.resolve cardinality
    let (blockPass, others) := splitBlockPass (Tree.nodesOf args)
    return some (Ir.InteractionView.build
      { cardinality := count.toTree
        receiver := receiver
        message := message
        args := if others.isEmpty then none else some (Tree.Build.array others)
        outcome := outcome.map outcomeOf
        blockPass := blockPass })

/-- Parses an interaction. A tree that is none, or whose right-hand side is no call, is left as it
is. -/
def parse (t : Tree) : Except TransformError Tree :=
  if t.isInteraction then
    let (expectation, outcome) := parts t
    match expectation.binaryCall? with
    | some (cardinality, _, rhs) => do
      match ← build cardinality rhs outcome with
      | some interaction => return interaction.located t.location
      | none => return t
    | none => .ok t
  else .ok t

end Interaction

end PhasedTests
