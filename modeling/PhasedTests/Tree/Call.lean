import PhasedTests.Tree.Basic

/-!
# Calls

A method call is a `send` or `csend` node: a receiver, which is a node or nil, the method's symbol,
and the arguments. A bare call has neither receiver nor arguments and reads like a plain word.
-/

namespace PhasedTests

/-- A method call read off a node. -/
structure Call where
  receiver : Option Tree
  method : String
  args : List Tree

namespace Call

/-- The arguments that are nodes. -/
def argNodes (call : Call) : List Tree :=
  Tree.nodesOf call.args

end Call

namespace Tree

/-- The receiver that a call's first child stands for: a node, or none for nil. Any other leaf is
no receiver. -/
def receiver? : Tree → Option (Option Tree)
  | leaf .nil => some none
  | leaf _ => none
  | t => some (some t)

/-- The call that a node stands for. -/
def call? : Tree → Option Call
  | node tag (receiver :: leaf (.symbol method) :: args) _ =>
    if tag == "send" || tag == "csend" then
      receiver.receiver?.map fun receiver => ⟨receiver, method, args⟩
    else none
  | _ => none

/-- The method name of a bare call. -/
def bareCall? (t : Tree) : Option String :=
  match t.call? with
  | some ⟨none, method, []⟩ => some method
  | _ => none

/-- A call with one node as its receiver and one node as its only argument: receiver, method,
argument. -/
def binaryCall? (t : Tree) : Option (Tree × String × Tree) :=
  match t.call? with
  | some ⟨some left, method, [right]⟩ => if right.isNode then some (left, method, right) else none
  | _ => none

/-- The children of a call: its receiver, its method and its arguments. -/
theorem children_of_call? {t : Tree} {call : Call} (hfound : t.call? = some call) :
    ∃ receiver, t.children = receiver :: .symbol call.method :: call.args ∧
      receiver.receiver? = some call.receiver := by
  unfold call? at hfound
  split at hfound
  · split at hfound
    · obtain ⟨receiver, hread, rfl⟩ := Option.map_eq_some_iff.mp hfound
      exact ⟨_, rfl, hread⟩
    · cases hfound
  · cases hfound

/-- A call is a `send` or a `csend`. -/
theorem tag_of_call? {t : Tree} {call : Call} (hfound : t.call? = some call) :
    t.tag = "send" ∨ t.tag = "csend" := by
  unfold call? at hfound
  split at hfound
  · split at hfound
    · rename_i hsends
      simpa [tag] using hsends
    · cases hfound
  · cases hfound

/-- A receiver is the tree that stands in its place. -/
theorem eq_of_receiver? {t receiver : Tree} (hread : t.receiver? = some (some receiver)) :
    t = receiver := by
  unfold receiver? at hread
  split at hread <;> simp_all

end Tree

end PhasedTests
