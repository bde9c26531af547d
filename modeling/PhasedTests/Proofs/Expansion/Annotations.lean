import PhasedTests.Proofs.Expansion.Phaseless
import PhasedTests.Proofs.Expansion.Siblings
import PhasedTests.Proofs.Sexp.Placed

/-!
# Files and their annotations

A file without annotations passes through the expansion of annotations as it is, so in it the
standard chain is the phase expansion alone.
-/

namespace PhasedTests

namespace Tree

/-- The tree holds no annotation. -/
def Unannotated (t : Tree) : Prop :=
  ∀ u, Inside u t → u.annotates = false

instance : DecidablePred Unannotated :=
  fun t => decideInside (fun u => u.annotates = false) t

/-- A node is unannotated if it is no annotation and its children are unannotated. -/
theorem unannotated_node {tag : String} {children : List Tree} {location : Option Span} :
    (node tag children location).Unannotated ↔
      (node tag children location).annotates = false ∧ ∀ c ∈ children, c.Unannotated :=
  forall_inside_node

end Tree

namespace Annotations

mutual

/-- A tree without annotations stays as it is. -/
theorem expand_of_unannotated {registry : Registry} {context : Context} : {t : Tree} →
    t.Unannotated → expand registry context t = .ok (t, context)
  | .leaf value, _ => expand_leaf value
  | .node _ _ _, hplain =>
    expand_node (expandAll_of_unannotated registry context _ (Tree.unannotated_node.mp hplain).2)

/-- Trees without annotations stay as they are. -/
theorem expandAll_of_unannotated (registry : Registry) (context : Context) :
    (trees : List Tree) → (∀ t ∈ trees, t.Unannotated) →
      expandAll registry context none trees = .ok (trees, context)
  | [], _ => by rw [expandAll]
  | t :: rest, hplain =>
    have hfirst := hplain t List.mem_cons_self
    expandAll_plain_ok (hfirst t (.self t)) (noteFor_none t.tag) (expand_of_unannotated hfirst)
      (expandAll_of_unannotated registry context rest
        fun c hc => hplain c (List.mem_cons_of_mem t hc))

end

end Annotations

/-- The expansion of a laid out tree. -/
theorem Pipeline.expandText_layout (pipeline : Pipeline) (path : String) {t : Tree} {indent : Nat}
    (hnode : t.isNode = true) (hreadable : t.Readable) :
    pipeline.expandText path (t.layout indent) =
      Pass.runAll (.ofText (t.layout indent))
        (Tree.placed (.ofChars (t.layout indent).toList) indent 0 0 t) pipeline.chain := by
  unfold expandText
  rw [Tree.readText_layout hnode hreadable]
  rfl

/-- A file without annotations only goes through the phase expansion. -/
theorem Pass.runAll_standard {mode : Mode} {indent : Nat} {context : Context} {t : Tree}
    (hplain : t.Unannotated) :
    runAll context t (Pipeline.standard mode indent).chain = Phases.expand mode context t := by
  change (Annotations.expand Annotations.standard context t >>= _) = _
  rw [Annotations.expand_of_unannotated hplain]
  change ((Phases.expand mode context t).map _ >>= _) = _
  cases Phases.expand mode context t with
  | error e => rfl
  | ok expanded => rfl

end PhasedTests
