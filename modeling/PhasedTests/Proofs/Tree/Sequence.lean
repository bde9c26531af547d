import PhasedTests.Proofs.Ir.View
import PhasedTests.Proofs.Tree.Shape
import PhasedTests.Sexp.Layout

/-!
# Statements in sequences

A statement of a sequence is a child node of a `begin`. Such a `begin` always breaks, wherever it
stands.
-/

namespace PhasedTests.Tree

/-- A path is walked in two parts. -/
theorem dig?_append (t : Tree) (first second : List Nat) :
    t.dig? (first ++ second) = (t.dig? first).bind fun found => found.dig? second := by
  induction first generalizing t with
  | nil => rfl
  | cons index first ih =>
    rw [List.cons_append, dig?, dig?]
    cases t.nodeAt? index with
    | none => rfl
    | some child => exact ih child

/-- A path of one index leads to the child node there. -/
theorem dig?_singleton (t : Tree) (index : Nat) : t.dig? [index] = t.nodeAt? index := by
  unfold dig?
  cases t.nodeAt? index <;> rfl

/-- The path leads to a statement of a sequence. -/
def Sequenced (t : Tree) (path : List Nat) (statement : Tree) : Prop :=
  ∃ above index sequence, path = above ++ [index] ∧ t.dig? above = some sequence ∧
    sequence.hasTag "begin" = true ∧ sequence.nodeAt? index = some statement

namespace Sequenced

variable {t statement : Tree} {path : List Nat}

/-- The path of a statement in a sequence leads to it. -/
theorem dig? (hsequenced : t.Sequenced path statement) : t.dig? path = some statement := by
  obtain ⟨above, index, sequence, rfl, habove, -, hstatement⟩ := hsequenced
  rw [dig?_append, habove, Option.bind_some, dig?_singleton, hstatement]

/-- The statement seen from a tree that the sequence lies in. -/
theorem behind {outer : Tree} {above : List Nat} (hsequenced : t.Sequenced path statement)
    (houter : outer.dig? above = some t) : outer.Sequenced (above ++ path) statement := by
  obtain ⟨inner, index, sequence, rfl, hinner, hbegin, hstatement⟩ := hsequenced
  refine ⟨above ++ inner, index, sequence, (List.append_assoc _ _ _).symm, ?_, hbegin, hstatement⟩
  rw [dig?_append, houter, Option.bind_some, hinner]

/-- The statement with the index of the sequence in a `begin`. -/
theorem of_getElem? {statements : List Tree} {index : Nat} {location : Option Span}
    (hstatement : statements[index]? = some statement) (hnode : statement.isNode = true) :
    (node "begin" statements location).Sequenced [index] statement := by
  refine ⟨[], index, _, rfl, rfl, hasTag_self _ _ _, ?_⟩
  unfold nodeAt? children
  rw [hstatement, Option.filter_some, if_pos hnode]

end Sequenced

/-- A sequence with a statement breaks. -/
theorem isMultiline_of_begin {t statement : Tree} {index : Nat} (hbegin : t.hasTag "begin" = true)
    (hstatement : t.nodeAt? index = some statement) : t.isMultiline = true := by
  cases t with
  | leaf value => cases hbegin
  | node tag children location =>
    obtain ⟨hchild, hnode⟩ := Option.filter_eq_some_iff.mp hstatement
    have htag : tag = "begin" := by simpa [hasTag, isNode, Tree.tag] using hbegin
    have hany : children.any isNode = true :=
      List.any_eq_true.mpr ⟨statement, List.mem_of_getElem? hchild, hnode⟩
    rw [isMultiline, htag, hany]
    rfl

end PhasedTests.Tree
