import PhasedTests.Tree.Basic

/-!
# Annotatable nodes

Annotations stand before classes and constant assignments. How deep these are nested is what an
expansion by annotations works its way down.
-/

namespace PhasedTests

/-- The tags of the nodes that an annotation may stand before. -/
def targetTags : List String :=
  ["class", "casgn"]

namespace Tree

mutual

/-- The largest number of annotatable nodes on a path down from the root. -/
def targetDepth : Tree → Nat
  | .leaf _ => 0
  | .node tag children _ =>
    (if targetTags.contains tag then 1 else 0) + targetDepthAll children

/-- The largest number of annotatable nodes on a path down from one of the trees. -/
def targetDepthAll : List Tree → Nat
  | [] => 0
  | t :: rest => max (targetDepth t) (targetDepthAll rest)

end

/-- A target is one deeper than what is inside it, and any other node as deep. -/
theorem targetDepth_node {tag : String} {children : List Tree} {location : Option Span} :
    (node tag children location).targetDepth =
      (if targetTags.contains tag then 1 else 0) + targetDepthAll children := by
  rw [targetDepth]

/-- The depth of a list is that of its deepest tree at least. -/
theorem targetDepth_le_targetDepthAll {t : Tree} {trees : List Tree} (hmem : t ∈ trees) :
    t.targetDepth ≤ targetDepthAll trees := by
  induction trees with
  | nil => simp at hmem
  | cons first rest ih =>
    rw [targetDepthAll]
    rcases List.mem_cons.mp hmem with rfl | hmem
    · exact Nat.le_max_left _ _
    · exact Nat.le_trans (ih hmem) (Nat.le_max_right _ _)

/-- A bound for all trees of a list is one for the list. -/
theorem targetDepthAll_le {trees : List Tree} {bound : Nat}
    (hall : ∀ t ∈ trees, t.targetDepth ≤ bound) : targetDepthAll trees ≤ bound := by
  induction trees with
  | nil => simp [targetDepthAll]
  | cons first rest ih =>
    rw [targetDepthAll]
    exact Nat.max_le.mpr ⟨hall first (by simp), ih fun t hmem => hall t (by simp [hmem])⟩

end Tree

end PhasedTests
