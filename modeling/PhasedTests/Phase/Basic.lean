import PhasedTests.Tree.Call

/-!
# Phases

The phases of a test and the order they may come in. A phase opens with a bare word such as
`Given`, which may carry a description; the table below says which phases may open a test, which
may end it, and which may follow which.

| Phase   | opens | ends | followed by    |
|---------|-------|------|----------------|
| Given   | yes   | no   | When, Expect   |
| When    | yes   | no   | Then           |
| Then    | no    | yes  | Cleanup, Where |
| Expect  | yes   | yes  | Cleanup, Where |
| Cleanup | no    | yes  | Where          |
| Where   | no    | yes  |                |
-/

namespace PhasedTests

/-- A phase of a test. `start` stands before the first introduced phase and `finish` after the
last statement; neither is ever written. -/
inductive Phase where
  | start | given | when | then | expect | cleanup | where | finish
  deriving DecidableEq, Repr

namespace Phase

/-- The phases that a statement can introduce, in their usual order. -/
def introduced : List Phase :=
  [given, .when, .then, expect, cleanup, .where]

/-- Whether a test may open with the phase. -/
def canStart : Phase → Bool
  | given | .when | expect => true
  | _ => false

/-- Whether a test may end with the phase. -/
def canEnd : Phase → Bool
  | .then | expect | cleanup | .where => true
  | _ => false

/-- The phases that may follow. -/
def successors : Phase → List Phase
  | start => introduced.filter canStart
  | given => [.when, expect]
  | .when => [.then]
  | .then => [cleanup, .where]
  | expect => [cleanup, .where]
  | cleanup => [.where]
  | .where => []
  | finish => []

/-- Whether `next` may follow, where the end of the test counts as a phase. -/
def allows (phase next : Phase) : Bool :=
  if next = finish then phase.canEnd else phase.successors.contains next

/-- The word that introduces the phase. -/
def name : Phase → String
  | start => "Start"
  | given => "Given"
  | .when => "When"
  | .then => "Then"
  | expect => "Expect"
  | cleanup => "Cleanup"
  | .where => "Where"
  | finish => "End"

/-- The phase that a word introduces. -/
def ofName? (name : String) : Option Phase :=
  introduced.find? fun phase => phase.name == name

/-- The tag of the phase's node in a parsed test. -/
def irTag? : Phase → Option String
  | given => some "ps_given"
  | .when => some "ps_when"
  | .then => some "ps_then"
  | expect => some "ps_expect"
  | cleanup => some "ps_cleanup"
  | .where => some "ps_where"
  | start | finish => none

/-- The phase whose statements a node with this tag holds. A table of rows is not one of them. -/
def ofIrTag? (tag : String) : Option Phase :=
  (introduced.filter (· ≠ .where)).find? fun phase => phase.irTag? == some tag

end Phase

namespace Tree

/-- The phase that a statement introduces. -/
def introduces? (statement : Tree) : Option Phase :=
  match statement.call? with
  | some ⟨none, method, _⟩ => Phase.ofName? method
  | _ => none

/-- What a statement introduces is one of the six phases. -/
theorem mem_introduced {statement : Tree} {phase : Phase}
    (hintroduces : statement.introduces? = some phase) : phase ∈ Phase.introduced := by
  unfold introduces? at hintroduces
  split at hintroduces
  · exact List.mem_of_find?_eq_some hintroduces
  · cases hintroduces

end Tree

/-- Whether one of the statements introduces a phase. -/
def hasPhases (statements : List Tree) : Bool :=
  statements.any fun statement => statement.introduces?.isSome

end PhasedTests
