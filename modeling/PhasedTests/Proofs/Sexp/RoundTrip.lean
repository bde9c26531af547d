import PhasedTests.Proofs.Sexp.Placed

/-!
# The round trip of trees

Reading a laid out tree gives the tree back, at any indentation. Laying out what was read is
therefore stable: the text of a tree that was read is read as a tree with the same text.
-/

namespace PhasedTests.Tree

/-- A tree whose tags can be read is read back from its own text as a tree of the same shape. -/
theorem exists_readText_layout (indent : Nat) (path : String) {t : Tree}
    (hnode : t.isNode = true) (hreadable : t.Readable) :
    ∃ emitted, readText path (t.layout indent) = .ok emitted ∧ emitted.bare = t.bare :=
  ⟨_, readText_layout hnode hreadable path, bare_placed t 0 0⟩

/-- Layout and reading are inverse: a node whose tags can be read and whose floats are numbers is
read back from its text as an equal tree, and the text of any tree that was read is the text of the
tree it is read as. -/
theorem readText_layout_roundTrip (indent : Nat) (path : String) :
    (∀ t : Tree, t.isNode = true → t.Readable → WithoutNaN t.scalars →
      ∃ emitted, readText path (t.layout indent) = .ok emitted ∧ (emitted == t) = true) ∧
    ∀ (text : String) (t : Tree), readText path text = .ok t →
      ∃ emitted, readText path (t.layout indent) = .ok emitted ∧
        emitted.layout indent = t.layout indent := by
  constructor
  · intro t hnode hreadable hnan
    obtain ⟨emitted, hread, hshape⟩ := exists_readText_layout indent path hnode hreadable
    refine ⟨emitted, hread, beq_of_bare_eq hshape ?_⟩
    rw [scalars_eq_of_bare_eq hshape]
    exact hnan
  · intro text t hread
    obtain ⟨emitted, hagain, hshape⟩ :=
      exists_readText_layout indent path (isNode_of_readText hread) (readable_of_readText hread)
    exact ⟨emitted, hagain, layout_eq_of_bare_eq hshape indent⟩

/-- The round trip of a tree with a node of every layout and a scalar of every kind. -/
theorem readText_layout_roundTrip_sample :
    let sample := node "begin" [
      node "send" [nil, symbol "a b", text "say \"x\"\n", int (-7)] none,
      node "nil" [leaf (.float (Float.ofBits 0xBFF8000000000000)), symbol ""] none] none
    (∃ emitted, readText "a.sexp" (sample.layout 2) = .ok emitted ∧ (emitted == sample) = true) ∧
      ∃ emitted, readText "a.sexp" (sample.layout 2) = .ok emitted ∧
        emitted.layout 2 = sample.layout 2 := by
  intro sample
  have hreadable : sample.Readable := by
    unfold Readable
    decide
  have hnan : WithoutNaN sample.scalars := by
    intro x hx
    have hfloat : x = Float.ofBits 0xBFF8000000000000 := by
      simpa [sample, scalars, scalarsAll] using hx
    rw [hfloat]
    decide
  have hread := @readText_layout 2 sample rfl hreadable "a.sexp"
  obtain ⟨htrees, htexts⟩ := readText_layout_roundTrip 2 "a.sexp"
  refine ⟨htrees sample rfl hreadable hnan, ?_⟩
  obtain ⟨emitted, hagain, htext⟩ := htexts _ _ hread
  rw [layout_eq_of_bare_eq (bare_placed sample 0 0)] at hagain htext
  exact ⟨emitted, hagain, htext⟩

end PhasedTests.Tree
