import PhasedTests.Expansion.Containment.Generate

/-!
# The phase expansion

Replaces every test block of a tree by the method generated from its phases. Test blocks are not
searched for further test blocks. Classes and constant assignments that an annotation has finished
are passed over. The lenient expansion leaves tests without phases alone; the strict one rejects
them.
-/

namespace PhasedTests

/-- What happens to tests without phases. -/
inductive Mode where
  | strict
  | lenient
  deriving DecidableEq, Repr

namespace Phases

/-- The expansion of a test block. -/
def expandTest (mode : Mode) (context : Context) (t : Tree) : Except TransformError Tree :=
  if mode = .lenient && !hasPhases t.testStatements then .ok t
  else do
    let parsed ← TestMethod.parse context t
    Generate.method parsed

mutual

/-- The expansion of a tree. -/
def expand (mode : Mode) (context : Context) : Tree → Except TransformError Tree
  | .leaf value => .ok (.leaf value)
  | .node tag children location =>
    let t := Tree.node tag children location
    if targetTags.contains tag && context.isFinished t then .ok t
    else if t.isTestBlock then expandTest mode context t
    else do
      let expanded ← expandAll mode context children
      return .node tag expanded location

/-- The expansion of every tree of a list, up to the first failure. -/
def expandAll (mode : Mode) (context : Context) : List Tree → Except TransformError (List Tree)
  | [] => .ok []
  | t :: rest => do
    let first ← expand mode context t
    let others ← expandAll mode context rest
    return first :: others

end

private theorem expandTest_within {R : Tree → Tree → Prop} (K : Containment R) {mode : Mode}
    {context : Context} {t t' : Tree} (hdone : expandTest mode context t = .ok t') : R t' t := by
  unfold expandTest at hdone
  split at hdone
  · obtain rfl := Except.ok.inj hdone
    exact K.refl t
  · cases hparsed : TestMethod.parse context t with
    | error e => simp [hparsed, bind, Except.bind] at hdone
    | ok test =>
      simp only [hparsed, bind, Except.bind] at hdone
      exact K.trans (K.of_method hdone) (K.assembly.of_testParse hparsed
        (fun _ hmem => K.assembly.of_mem_children hmem) (placeWithin_location (K.refl t)))

mutual

/-- The expanded tree holds no more than the tree does. -/
theorem expand_within {R : Tree → Tree → Prop} (K : Containment R) {mode : Mode}
    {context : Context} : ∀ {t t' : Tree}, expand mode context t = .ok t' → R t' t
  | .leaf value, t', hdone => by
    rw [expand] at hdone
    obtain rfl := Except.ok.inj hdone
    exact K.refl _
  | .node tag children location, t', hdone => by
    rw [expand] at hdone
    split at hdone
    · obtain rfl := Except.ok.inj hdone
      exact K.refl _
    · split at hdone
      · exact expandTest_within K hdone
      · cases hinner : expandAll mode context children with
        | error e => simp [hinner, bind, Except.bind] at hdone
        | ok expanded =>
          obtain rfl : _ = t' := by
            simpa [hinner, bind, Except.bind, pure, Except.pure] using hdone
          exact K.exchanged (expandAll_within K hinner)

/-- Every expanded tree holds no more than one of the trees does. -/
theorem expandAll_within {R : Tree → Tree → Prop} (K : Containment R) {mode : Mode}
    {context : Context} : ∀ {trees trees' : List Tree}, expandAll mode context trees = .ok trees' →
      ∀ c ∈ trees', ∃ d ∈ trees, R c d
  | [], trees', hdone, c, hmem => by
    rw [expandAll] at hdone
    obtain rfl := Except.ok.inj hdone
    simp at hmem
  | t :: rest, trees', hdone, c, hmem => by
    rw [expandAll] at hdone
    cases hfirst : expand mode context t with
    | error e => simp [hfirst, bind, Except.bind] at hdone
    | ok t' =>
      cases hothers : expandAll mode context rest with
      | error e => simp [hfirst, hothers, bind, Except.bind] at hdone
      | ok rest' =>
        obtain rfl : t' :: rest' = trees' := by
          simpa [hfirst, hothers, bind, Except.bind, pure, Except.pure] using hdone
        rcases List.mem_cons.mp hmem with rfl | hmem
        · exact ⟨t, by simp, expand_within K hfirst⟩
        · obtain ⟨d, hd, hlesser⟩ := expandAll_within K hothers c hmem
          exact ⟨d, by simp [hd], hlesser⟩

end

/-- The expansion of an annotatable node keeps the node and does not nest annotatable nodes deeper
inside it. -/
theorem expand_target {mode : Mode} {context : Context} {tag : String} {children : List Tree}
    {location : Option Span} {t' : Tree} (htarget : targetTags.contains tag = true)
    (hdone : expand mode context (.node tag children location) = .ok t') :
    ∃ children', t' = .node tag children' location ∧
      Tree.targetDepthAll children' ≤ Tree.targetDepthAll children := by
  rw [expand] at hdone
  split at hdone
  · exact ⟨children, (Except.ok.inj hdone).symm, Nat.le_refl _⟩
  · have htest : (Tree.node tag children location).isTestBlock = false := by
      have hother : tag ≠ "block" := by
        rintro rfl
        exact absurd htarget (by decide)
      simp [Tree.isTestBlock, Tree.hasTag, Tree.tag, hother]
    cases hinner : expandAll mode context children with
    | error e => simp [htest, hinner, bind, Except.bind] at hdone
    | ok expanded =>
      refine ⟨expanded, ?_, Tree.targetDepthAll_le fun c hmem => ?_⟩
      · simpa [htest, hinner, bind, Except.bind, pure, Except.pure] using hdone.symm
      · obtain ⟨d, hd, hlesser⟩ := expandAll_within containment_targetDepth hinner c hmem
        exact Nat.le_trans hlesser (Tree.targetDepth_le_targetDepthAll hd)

end Phases

end PhasedTests
