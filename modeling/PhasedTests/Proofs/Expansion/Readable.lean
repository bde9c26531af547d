import PhasedTests.Pipeline
import PhasedTests.Proofs.Outcome
import PhasedTests.Proofs.Sexp.Tag

/-!
# What an expanded file contains

The comparisons of trees that the phase expansion obeys carry over to annotations and to the whole
chain of a pipeline. One of them is that every tag can be read, so an expanded file can be laid out
and read again.
-/

namespace PhasedTests

variable {R : Tree → Tree → Prop}

namespace Annotations

/-- The transformations of an annotation leave no more in its target. -/
theorem apply_within (K : Containment R) {registry : Registry} {context : Context}
    {note target current : Tree} (hdone : apply registry context note target = .ok current) :
    R current target := by
  obtain ⟨modes, -, hfold⟩ := ok_of_bind hdone
  refine foldlM_ok (fun t => R t target) hfold (K.refl target) ?_
  intro mode _ before after hbefore hstep
  exact K.trans (Phases.expand_within K hstep) hbefore

/-- A node with the expanded children of another holds no more than that one does. -/
private theorem withChildren_within (K : Containment R) {t : Tree} {others : List Tree}
    (hothers : ∀ c ∈ others, ∃ d ∈ t.children, R c d) : R (t.withChildren others) t := by
  cases t with
  | leaf value => exact K.refl _
  | node tag children location => exact K.exchanged hothers

private theorem forall_cons {t first : Tree} {trees expanded : List Tree} (hfirst : R first t)
    (hrest : ∀ c ∈ expanded, ∃ d ∈ trees, R c d) :
    ∀ c ∈ first :: expanded, ∃ d ∈ t :: trees, R c d := by
  intro c hc
  rcases List.mem_cons.mp hc with rfl | hc
  · exact ⟨t, List.mem_cons_self, hfirst⟩
  · obtain ⟨d, hd, hlesser⟩ := hrest c hc
    exact ⟨d, List.mem_cons_of_mem _ hd, hlesser⟩

/-- The expanded siblings hold no more than the siblings do. -/
theorem expandAll_within (K : Containment R) {registry : Registry} {context final : Context}
    {pending : Option Tree} {trees expanded : List Tree}
    (hdone : expandAll registry context pending trees = .ok (expanded, final)) :
    ∀ c ∈ expanded, ∃ d ∈ trees, R c d := by
  fun_induction expandAll registry context pending trees generalizing expanded final with
  | case1 =>
    obtain ⟨rfl, -⟩ := Prod.mk.inj (Except.ok.inj hdone)
    exact fun c hc => nomatch hc
  | case2 context pending value rest ih =>
    obtain ⟨⟨others, after⟩, hothers, hdone⟩ := ok_of_bind hdone
    obtain ⟨rfl, -⟩ := Prod.mk.inj (Except.ok.inj hdone)
    exact forall_cons (K.refl _) (ih hothers)
  | case3 =>
    rename_i ih
    intro c hc
    obtain ⟨d, hd, hlesser⟩ := ih hdone c hc
    exact ⟨d, List.mem_cons_of_mem _ hd, hlesser⟩
  | case4 =>
    rename_i ihinner ihothers
    obtain ⟨⟨inner, after⟩, hinner, hdone⟩ := ok_of_bind hdone
    obtain ⟨⟨others, last⟩, hothers, hdone⟩ := ok_of_bind hdone
    obtain ⟨rfl, -⟩ := Prod.mk.inj (Except.ok.inj hdone)
    exact forall_cons (K.exchanged (ihinner hinner)) (ihothers after hothers)
  | case5 => cases hdone
  | case6 =>
    rename_i happlied ihinner ihothers
    obtain ⟨⟨inner, after⟩, hinner, hdone⟩ := ok_of_bind hdone
    obtain ⟨⟨others, last⟩, hothers, hdone⟩ := ok_of_bind hdone
    obtain ⟨rfl, -⟩ := Prod.mk.inj (Except.ok.inj hdone)
    have hcurrent := apply_within K happlied
    have hfinished := K.trans (withChildren_within K (ihinner hinner)) hcurrent
    exact forall_cons hfinished (ihothers inner after hothers)

/-- An expanded tree holds no more than the tree does. -/
theorem expand_within (K : Containment R) {registry : Registry} {context final : Context}
    {t expanded : Tree} (hdone : expand registry context t = .ok (expanded, final)) :
    R expanded t := by
  obtain ⟨⟨children, after⟩, hchildren, hdone⟩ := ok_of_bind hdone
  obtain ⟨rfl, -⟩ := Prod.mk.inj (Except.ok.inj hdone)
  exact withChildren_within K (expandAll_within K hchildren)

end Annotations

namespace Pass

/-- Passes in a row leave no more in a tree than it holds. -/
theorem runAll_within (K : Containment R) {passes : List Pass} {context : Context}
    {t expanded : Tree} (hdone : runAll context t passes = .ok expanded) : R expanded t := by
  induction passes generalizing context t with
  | nil =>
    obtain rfl := Except.ok.inj hdone
    exact K.refl _
  | cons pass rest ih =>
    obtain ⟨⟨next, after⟩, hpass, hrest⟩ := ok_of_bind hdone
    refine K.trans (ih hrest) ?_
    cases pass with
    | annotations registry => exact Annotations.expand_within K hpass
    | phases mode =>
      obtain ⟨expanded', hexpand, hpair⟩ := ok_of_map hpass
      obtain ⟨rfl, -⟩ := Prod.mk.inj hpair
      exact Phases.expand_within K hexpand

end Pass

/-- An expanded file holds no more than its source. -/
theorem Pipeline.expandText_within (K : Containment R) {pipeline : Pipeline} {path text : String}
    {expanded : Tree} (hdone : pipeline.expandText path text = .ok expanded) :
    ∃ t, readText path text = .ok t ∧ R expanded t := by
  obtain ⟨t, hread, hrun⟩ := ok_of_bind hdone
  exact ⟨t, ok_of_mapError hread, Pass.runAll_within K hrun⟩

/-! ## Tags -/

private theorem isTag_of_generated {tag : String} (hknown : generatedTags.contains tag = true) :
    isTag tag = true := by
  have htags : ∀ tag ∈ generatedTags, isTag tag = true := by decide
  exact htags tag (List.contains_iff_mem.mp hknown)

/-- That all tags can be read is a comparison that the expansion obeys, since every tag that it
makes can be read. -/
theorem containment_readable : Containment fun a b => b.Readable → a.Readable where
  refl _ hreadable := hreadable
  trans hfirst hsecond hreadable := hfirst (hsecond hreadable)
  leaf value _ _ := Tree.readable_leaf value
  child hmember hreadable := (Tree.readable_node.mp hreadable).2 _ hmember
  generated hknown hparts _ hreadable :=
    Tree.readable_node.mpr ⟨isTag_of_generated hknown, fun c hc => hparts c hc hreadable⟩
  moved {a} _ _ hpart _ hreadable := by
    cases a with
    | leaf value => exact Tree.readable_leaf value
    | node tag children location =>
      exact Tree.readable_node.mpr (Tree.readable_node.mp (hpart hreadable))
  exchanged hlesser hreadable := by
    obtain ⟨htag, hchildren⟩ := Tree.readable_node.mp hreadable
    refine Tree.readable_node.mpr ⟨htag, fun c hc => ?_⟩
    obtain ⟨d, hd, hcd⟩ := hlesser c hc
    exact hcd (hchildren d hd)

/-- The tags of an expanded file can be read. -/
theorem Pipeline.readable_of_expandText {pipeline : Pipeline} {path text : String} {expanded : Tree}
    (hdone : pipeline.expandText path text = .ok expanded) : expanded.Readable := by
  obtain ⟨t, hread, hwithin⟩ := expandText_within containment_readable hdone
  exact hwithin (readable_of_readText hread)

/-! ## Nodes stay nodes -/

/-- A generated method is a block. -/
theorem Generate.block_of_method {test built : Tree} (hdone : method test = .ok built) :
    ∃ children, built = .node "block" children none := by
  unfold method at hdone
  split at hdone
  · cases hdone
  · obtain ⟨body, -, hdone⟩ := ok_of_bind hdone
    split at hdone
    · exact ⟨_, (Except.ok.inj hdone).symm⟩
    · exact ⟨_, (Except.ok.inj hdone).symm⟩

namespace Phases

/-- Leaves are left alone. -/
theorem ok_of_expand_leaf {mode : Mode} {context : Context} {value : Scalar} {expanded : Tree}
    (hdone : expand mode context (.leaf value) = .ok expanded) : expanded = .leaf value := by
  rw [expand] at hdone
  exact (Except.ok.inj hdone).symm

/-- A node is passed over as it is finished, expanded as a test, or expanded in its children. -/
theorem ok_of_expand_node {mode : Mode} {context : Context} {tag : String} {children : List Tree}
    {location : Option Span} {expanded : Tree}
    (hdone : expand mode context (.node tag children location) = .ok expanded) :
    (context.isFinished (.node tag children location) = true ∧
      expanded = .node tag children location) ∨
    ((Tree.node tag children location).isTestBlock = true ∧
      expandTest mode context (.node tag children location) = .ok expanded) ∨
    ((Tree.node tag children location).isTestBlock = false ∧ ∃ others,
      expandAll mode context children = .ok others ∧ expanded = .node tag others location) := by
  rw [expand] at hdone
  split at hdone
  · rename_i hfinished
    exact Or.inl ⟨(Bool.and_eq_true_iff.mp hfinished).2, (Except.ok.inj hdone).symm⟩
  · split at hdone
    · rename_i htest
      exact Or.inr (Or.inl ⟨htest, hdone⟩)
    · rename_i hother
      obtain ⟨others, hothers, hdone⟩ := ok_of_bind hdone
      exact Or.inr (Or.inr ⟨Bool.eq_false_iff.mpr hother, others, hothers,
        (Except.ok.inj hdone).symm⟩)

/-- A node is expanded to itself, to a block if it is a block, or in its children. -/
theorem expand_cases {mode : Mode} {context : Context} {tag : String} {children : List Tree}
    {location : Option Span} {expanded : Tree}
    (hdone : expand mode context (.node tag children location) = .ok expanded) :
    expanded = .node tag children location ∨
      (tag = "block" ∧ ∃ others, expanded = .node "block" others none) ∨
      ∃ others, expandAll mode context children = .ok others ∧
        expanded = .node tag others location := by
  rcases ok_of_expand_node hdone with ⟨-, hsame⟩ | ⟨htest, hdone⟩ | ⟨-, hexpanded⟩
  · exact Or.inl hsame
  · unfold expandTest at hdone
    split at hdone
    · exact Or.inl (Except.ok.inj hdone).symm
    · unfold Tree.isTestBlock at htest
      rw [Bool.and_eq_true, Bool.and_eq_true] at htest
      obtain ⟨test, -, hmethod⟩ := ok_of_bind hdone
      exact Or.inr (Or.inl ⟨beq_iff_eq.mp htest.1.1, Generate.block_of_method hmethod⟩)
  · exact Or.inr (Or.inr hexpanded)

/-- An expanded node is a node. -/
theorem isNode_of_expand {mode : Mode} {context : Context} {t expanded : Tree}
    (hdone : expand mode context t = .ok expanded) (hnode : t.isNode = true) :
    expanded.isNode = true := by
  cases t with
  | leaf value => cases hnode
  | node tag children location =>
    rcases expand_cases hdone with rfl | ⟨-, others, rfl⟩ | ⟨others, -, rfl⟩
    · rfl
    · rfl
    · rfl

end Phases

private theorem Pass.isNode_of_runAll {passes : List Pass} {context : Context} {t expanded : Tree}
    (hdone : runAll context t passes = .ok expanded) (hnode : t.isNode = true) :
    expanded.isNode = true := by
  induction passes generalizing context t with
  | nil =>
    obtain rfl := Except.ok.inj hdone
    exact hnode
  | cons pass rest ih =>
    obtain ⟨⟨next, after⟩, hpass, hrest⟩ := ok_of_bind hdone
    refine ih hrest ?_
    cases pass with
    | annotations registry =>
      obtain ⟨⟨children, last⟩, -, hpair⟩ := ok_of_bind hpass
      obtain ⟨rfl, -⟩ := Prod.mk.inj (Except.ok.inj hpair)
      cases t with
      | leaf value => cases hnode
      | node tag _ location => rfl
    | phases mode =>
      obtain ⟨next', hexpand, hpair⟩ := ok_of_map hpass
      obtain ⟨rfl, -⟩ := Prod.mk.inj hpair
      exact Phases.isNode_of_expand hexpand hnode

/-- An expanded file is a node. -/
theorem Pipeline.isNode_of_expandText {pipeline : Pipeline} {path text : String} {expanded : Tree}
    (hdone : pipeline.expandText path text = .ok expanded) : expanded.isNode = true := by
  obtain ⟨t, hread, hrun⟩ := ok_of_bind hdone
  exact Pass.isNode_of_runAll hrun (isNode_of_readText (ok_of_mapError hread))

end PhasedTests
