import PhasedTests.Expansion.Annotations
import PhasedTests.Proofs.Outcome

/-!
# Siblings and their annotations

The expansion of annotations goes through siblings one after the other. An annotation is dropped,
but kept in mind for the sibling behind it. A class or constant assignment behind one is first
transformed, then expanded and finished, and every other sibling is only expanded.
-/

namespace PhasedTests.Annotations

variable {registry : Registry} {context final : Context} {pending : Option Tree} {t : Tree}
  {rest expanded : List Tree}

/-- A leaf is kept, and nothing is finished by it. -/
theorem expand_leaf (value : Scalar) :
    expand registry context (.leaf value) = .ok (.leaf value, context) := by
  unfold expand Tree.children
  rw [expandAll]
  rfl

/-- The children of an expanded node are its expanded children. -/
theorem expand_node {tag : String} {children inner : List Tree} {location : Option Span}
    (hinner : expandAll registry context none children = .ok (inner, final)) :
    expand registry context (.node tag children location) =
      .ok (.node tag inner location, final) := by
  unfold expand Tree.children
  rw [hinner]
  rfl

/-- A node is expanded in its children. -/
theorem ok_of_expand_node {tag : String} {children : List Tree} {location : Option Span}
    {noted : Tree}
    (hdone : expand registry context (.node tag children location) = .ok (noted, final)) :
    ∃ inner, expandAll registry context none children = .ok (inner, final) ∧
      noted = .node tag inner location := by
  obtain ⟨⟨inner, after⟩, hinner, hdone⟩ := ok_of_bind hdone
  obtain ⟨rfl, rfl⟩ := Prod.mk.inj (Except.ok.inj hdone)
  exact ⟨inner, hinner, rfl⟩

/-- Without an annotation there is no target. -/
theorem noteFor_none (tag : String) : noteFor none tag = none := by
  unfold noteFor
  split <;> rfl

/-- An annotation is dropped. -/
theorem expandAll_note (hnote : t.annotates = true) (rest : List Tree) :
    expandAll registry context pending (t :: rest) =
      expandAll registry context (some t) rest := by
  cases t with
  | leaf value => cases hnote
  | node tag children location => rw [expandAll, if_pos hnote]

/-- A sibling that is neither an annotation nor the target of one is expanded. -/
theorem expandAll_plain (hplain : t.annotates = false) (hfree : noteFor pending t.tag = none)
    (rest : List Tree) :
    expandAll registry context pending (t :: rest) = (do
      let (first, after) ← expand registry context t
      let (others, final) ← expandAll registry after none rest
      return (first :: others, final)) := by
  cases t with
  | leaf value =>
    rw [expandAll, expand_leaf]
    rfl
  | node tag children location =>
    rw [expandAll]
    simp only [hplain, Bool.false_eq_true, if_false]
    split
    · unfold expand Tree.children
      cases expandAll registry context none children <;> rfl
    · rename_i note hnote
      cases hnote.symm.trans hfree

/-- A tree that no annotation stands before is expanded in itself, with the trees behind it. -/
theorem expandAll_plain_ok {first : Tree} {others : List Tree} {after : Context}
    (hplain : t.annotates = false) (hfree : noteFor pending t.tag = none)
    (hfirst : expand registry context t = .ok (first, after))
    (hothers : expandAll registry after none rest = .ok (others, final)) :
    expandAll registry context pending (t :: rest) = .ok (first :: others, final) := by
  rw [expandAll_plain hplain hfree, hfirst]
  change (expandAll registry after none rest >>= _) = _
  rw [hothers]
  rfl

/-- So both have been expanded if the list has been. -/
theorem ok_of_expandAll_plain (hplain : t.annotates = false)
    (hfree : noteFor pending t.tag = none)
    (hdone : expandAll registry context pending (t :: rest) = .ok (expanded, final)) :
    ∃ first after others, expand registry context t = .ok (first, after) ∧
      expandAll registry after none rest = .ok (others, final) ∧ expanded = first :: others := by
  rw [expandAll_plain hplain hfree] at hdone
  obtain ⟨⟨first, after⟩, hfirst, hdone⟩ := ok_of_bind hdone
  obtain ⟨⟨others, last⟩, hothers, hdone⟩ := ok_of_bind hdone
  obtain ⟨rfl, rfl⟩ := Prod.mk.inj (Except.ok.inj hdone)
  exact ⟨first, after, others, hfirst, hothers, rfl⟩

/-- A target is transformed, expanded and finished. -/
theorem expandAll_targeted {note : Tree} (hplain : t.annotates = false)
    (hnote : noteFor pending t.tag = some note) (rest : List Tree) :
    expandAll registry context pending (t :: rest) = (do
      let current ← apply registry context note t
      let (first, after) ← expand registry context current
      let (others, final) ← expandAll registry (after.finish first) none rest
      return (first :: others, final)) := by
  cases t with
  | leaf value =>
    have hother : noteFor pending (Tree.leaf value).tag = none := rfl
    cases hnote.symm.trans hother
  | node tag children location =>
    rw [expandAll]
    simp only [hplain, Bool.false_eq_true, if_false]
    split
    · rename_i hnone
      cases hnone.symm.trans hnote
    · rename_i found hfound
      obtain rfl := Option.some.inj (hfound.symm.trans hnote)
      split
      · rename_i e hfailed
        rw [hfailed]
        rfl
      · rename_i current hcurrent
        rw [hcurrent]
        unfold expand
        change _ = (expandAll registry context none current.children >>= _) >>= _
        cases expandAll registry context none current.children <;> rfl

/-- A target is transformed and then expanded, and it is finished for the trees behind it. -/
theorem expandAll_targeted_ok {note current first : Tree} {others : List Tree} {after : Context}
    (hplain : t.annotates = false) (hnote : noteFor pending t.tag = some note)
    (hcurrent : apply registry context note t = .ok current)
    (hfirst : expand registry context current = .ok (first, after))
    (hothers : expandAll registry (after.finish first) none rest = .ok (others, final)) :
    expandAll registry context pending (t :: rest) = .ok (first :: others, final) := by
  rw [expandAll_targeted hplain hnote, hcurrent]
  change (expand registry context current >>= _) = _
  rw [hfirst]
  change (expandAll registry (after.finish first) none rest >>= _) = _
  rw [hothers]
  rfl

/-- So all of this has succeeded if the list has been expanded. -/
theorem ok_of_expandAll_targeted {note : Tree} (hplain : t.annotates = false)
    (hnote : noteFor pending t.tag = some note)
    (hdone : expandAll registry context pending (t :: rest) = .ok (expanded, final)) :
    ∃ current first after others, apply registry context note t = .ok current ∧
      expand registry context current = .ok (first, after) ∧
      expandAll registry (after.finish first) none rest = .ok (others, final) ∧
      expanded = first :: others := by
  rw [expandAll_targeted hplain hnote] at hdone
  obtain ⟨current, hcurrent, hdone⟩ := ok_of_bind hdone
  obtain ⟨⟨first, after⟩, hfirst, hdone⟩ := ok_of_bind hdone
  obtain ⟨⟨others, last⟩, hothers, hdone⟩ := ok_of_bind hdone
  obtain ⟨rfl, rfl⟩ := Prod.mk.inj (Except.ok.inj hdone)
  exact ⟨current, first, after, others, hcurrent, hfirst, hothers, rfl⟩

end PhasedTests.Annotations
