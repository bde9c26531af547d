import PhasedTests.Proofs.Expansion.Shielding
import PhasedTests.Proofs.Expansion.Siblings
import PhasedTests.Proofs.Expansion.Strictness

/-!
# The tests that a strict expansion judges

A strict chain asks a phase of every test outside the targets of annotations, unless it passes over
a node around the test. Targets are remembered by their written form, so it also passes over a class
without annotation that is written like one that an annotation has finished.
-/

namespace PhasedTests

namespace Tree

/-- The siblings that are neither annotations nor the target of one. `pending` is the annotation
right before them, if any. -/
def plainSiblings (pending : Option Tree) : List Tree → List Tree
  | [] => []
  | t :: rest =>
    if t.annotates then plainSiblings (some t) rest
    else
      match Annotations.noteFor pending t.tag with
      | none => t :: plainSiblings none rest
      | some _ => plainSiblings none rest

/-- `Outside u t` says that `u` is `t` or lies inside it, and neither an annotation nor the target
of one lies in between. -/
inductive Outside : Tree → Tree → Prop where
  | self (t : Tree) : Outside t t
  | child {u c : Tree} {tag : String} {children : List Tree} {location : Option Span}
      (hc : c ∈ plainSiblings none children) (houtside : Outside u c) :
      Outside u (node tag children location)

private theorem mem_of_mem_plainSiblings {pending : Option Tree} {c : Tree} {trees : List Tree}
    (hc : c ∈ plainSiblings pending trees) : c ∈ trees := by
  induction trees generalizing pending with
  | nil => cases hc
  | cons t rest ih =>
    rw [plainSiblings] at hc
    split at hc
    · exact List.mem_cons_of_mem t (ih hc)
    · split at hc
      · rcases List.mem_cons.mp hc with rfl | hc
        · exact List.mem_cons_self
        · exact List.mem_cons_of_mem t (ih hc)
      · exact List.mem_cons_of_mem t (ih hc)

/-- A tree outside the targets is one of the trees inside. -/
theorem Outside.inside {u t : Tree} (houtside : Outside u t) : Inside u t := by
  induction houtside with
  | self => exact .self _
  | child hc _ ih => exact .child (mem_of_mem_plainSiblings hc) ih

end Tree

open PhasedTests.Tree (Outside plainSiblings)

namespace Annotations

variable {registry : Registry} {context final : Context}

/-- Siblings that are neither annotations nor targets are expanded where they stand. -/
theorem expand_of_mem_plainSiblings {pending : Option Tree} {trees expanded : List Tree}
    (hdone : expandAll registry context pending trees = .ok (expanded, final)) :
    ∀ c ∈ plainSiblings pending trees, ∃ before after c',
      expand registry before c = .ok (c', after) ∧ c' ∈ expanded := by
  induction trees generalizing context pending expanded with
  | nil => exact fun c hc => nomatch hc
  | cons t rest ih =>
    intro c hc
    rw [plainSiblings] at hc
    split at hc
    · rename_i hnote
      rw [expandAll_note hnote] at hdone
      exact ih hdone c hc
    · rename_i hplain
      rw [Bool.not_eq_true] at hplain
      split at hc
      · rename_i hfree
        obtain ⟨first, after, others, hfirst, hothers, rfl⟩ :=
          ok_of_expandAll_plain hplain hfree hdone
        rcases List.mem_cons.mp hc with rfl | hc
        · exact ⟨context, after, first, hfirst, List.mem_cons_self⟩
        · obtain ⟨before, last, c', hexpand, hc'⟩ := ih hothers c hc
          exact ⟨before, last, c', hexpand, List.mem_cons_of_mem first hc'⟩
      · rename_i note hnote
        obtain ⟨_, first, _, others, -, -, hothers, rfl⟩ :=
          ok_of_expandAll_targeted hplain hnote hdone
        obtain ⟨before, last, c', hexpand, hc'⟩ := ih hothers c hc
        exact ⟨before, last, c', hexpand, List.mem_cons_of_mem first hc'⟩

/-- What keeps the phase expansion from a test `u` of `t`: it does not look into a node around the
test, as the expansion of annotations leaves that node. -/
inductive Hidden (registry : Registry) (final : Context) (u t : Tree) : Prop where
  /-- The node is written like a finished target. -/
  | finished {v w : Tree} {before after : Context} (hv : Outside v t) (hu : Outside u v)
      (hexpand : expand registry before v = .ok (w, after))
      (hfinished : (targetTags.contains w.tag && final.isFinished w) = true)
  /-- The node has become a test itself, now that annotations in front of its call are gone. -/
  | absorbed {v w : Tree} {before after : Context} (hv : Outside v t) (hu : Outside u v)
      (hexpand : expand registry before v = .ok (w, after)) (hother : v.isTestBlock = false)
      (htest : w.isTestBlock = true)

/-- What is hidden in a child that no annotation stands before is hidden in the node. -/
theorem Hidden.of_child {u c : Tree} {tag : String} {children : List Tree}
    {location : Option Span} (hhidden : Hidden registry final u c)
    (hc : c ∈ plainSiblings none children) :
    Hidden registry final u (.node tag children location) := by
  cases hhidden with
  | finished hv hu hexpand hfinished => exact .finished (.child hc hv) hu hexpand hfinished
  | absorbed hv hu hexpand hother htest => exact .absorbed (.child hc hv) hu hexpand hother htest

end Annotations

namespace Phases

variable {context : Context}

/-- A strict expansion takes a test block apart. -/
theorem split_of_expand {t expanded : Tree} (htest : t.isTestBlock = true)
    (hdone : expand .strict context t = .ok expanded) :
    ∃ blocks, Block.split t.location t.testStatements = .ok blocks := by
  obtain ⟨_, _, _, _, _, rfl, -, -⟩ := Tree.isTestBlock_iff.mp htest
  rw [expand_test htest] at hdone
  obtain ⟨test, hparse, -⟩ := ok_of_bind hdone
  obtain ⟨_, _, blocks, _, _, -, -, hsplit, -⟩ := TestMethod.parse_cases hparse
  exact ⟨blocks, hsplit⟩

/-- Every one of the siblings is expanded. -/
theorem exists_expand_of_mem {mode : Mode} {trees others : List Tree}
    (hdone : expandAll mode context trees = .ok others) :
    ∀ c ∈ trees, ∃ c', expand mode context c = .ok c' := by
  induction trees generalizing others with
  | nil => exact fun c hc => nomatch hc
  | cons t rest ih =>
    obtain ⟨first, later, hfirst, hlater, -⟩ := expandAll_cons hdone
    exact List.forall_mem_cons.mpr ⟨⟨first, hfirst⟩, ih hlater⟩

/-- A node that is no test is expanded if its children are. -/
theorem exists_expand_of_expandAll {mode : Mode} {tag : String} {children inner : List Tree}
    {location : Option Span} (hother : (Tree.node tag children location).isTestBlock = false)
    (hinner : expandAll mode context children = .ok inner) :
    ∃ expanded, expand mode context (.node tag children location) = .ok expanded := by
  rw [expand]
  split
  · exact ⟨_, rfl⟩
  · rw [if_neg (by rw [hother]; decide), hinner]
    exact ⟨_, rfl⟩

end Phases

namespace Annotations

/-- A test outside all targets is taken apart by the strict phase expansion, unless it is hidden
from it. -/
theorem split_or_hidden {registry : Registry} {final : Context} {u t : Tree}
    (houtside : Outside u t) {before after : Context} {noted expanded : Tree}
    (hnoted : expand registry before t = .ok (noted, after))
    (hdone : Phases.expand .strict final noted = .ok expanded) (hunnested : t.Unnested)
    (htest : u.isTestBlock = true) (hplain : u.Unannotated) :
    (∃ blocks, Block.split u.location u.testStatements = .ok blocks) ∨
      Hidden registry final u t := by
  induction houtside generalizing before after noted expanded with
  | self =>
    rw [expand_of_unannotated hplain] at hnoted
    obtain ⟨rfl, -⟩ := Prod.mk.inj (Except.ok.inj hnoted)
    exact Or.inl (Phases.split_of_expand htest hdone)
  | @child c tag children location hc houtside ih =>
    have hu : Outside u (.node tag children location) := .child hc houtside
    obtain ⟨inner, hinner, rfl⟩ := ok_of_expand_node hnoted
    rw [Phases.expand] at hdone
    split at hdone
    · rename_i hfinished
      exact Or.inr (.finished (.self _) hu hnoted hfinished)
    · split at hdone
      · rename_i hblock
        cases hother : (Tree.node tag children location).isTestBlock with
        | false => exact Or.inr (.absorbed (.self _) hu hnoted hother hblock)
        | true =>
          -- A test in the source holds no other test.
          have hfree :=
            (Tree.unnested_node.mp hunnested).1 hother c (Tree.mem_of_mem_plainSiblings hc)
          rw [hfree u houtside.inside] at htest
          cases htest
      · obtain ⟨others, hothers, -⟩ := ok_of_bind hdone
        obtain ⟨_, _, c', hexpand, hc'⟩ := expand_of_mem_plainSiblings hinner c hc
        obtain ⟨built, hbuilt⟩ := Phases.exists_expand_of_mem hothers c' hc'
        have hunnestedChild :=
          (Tree.unnested_node.mp hunnested).2 c (Tree.mem_of_mem_plainSiblings hc)
        rcases ih hexpand hbuilt hunnestedChild with hsplit | hhidden
        · exact Or.inl hsplit
        · exact Or.inr (hhidden.of_child hc)

end Annotations

namespace Pipeline

/-- If the strict chain accepts a text whose tests are not nested, then every test without
annotations that lies outside their targets opens with a phase and has its phases in order, or is
hidden from the phase expansion. -/
theorem split_of_expandText {indent : Nat} {path text : String} {t expanded : Tree}
    (hread : readText path text = .ok t) (hunnested : t.Unnested)
    (hdone : (standard .strict indent).expandText path text = .ok expanded) :
    ∃ noted final,
      Annotations.expand Annotations.standard (.ofText text) t = .ok (noted, final) ∧
      ∀ u, Outside u t → u.isTestBlock = true → u.Unannotated →
        (∃ blocks, Block.split u.location u.testStatements = .ok blocks) ∨
          Annotations.Hidden Annotations.standard final u t := by
  obtain ⟨other, hother, hrun⟩ := ok_of_bind hdone
  obtain rfl := Except.ok.inj (hread.symm.trans (ok_of_mapError hother))
  obtain ⟨noted, final, hnoted, hphases⟩ := Pass.runAll_standard_iff.mp hrun
  exact ⟨noted, final, hnoted, fun u houtside htest hplain =>
    Annotations.split_or_hidden houtside hnoted hphases hunnested htest hplain⟩

/-- A class with one test, which has these statements. -/
def classOf (name : String) (statements : List Tree) : Tree :=
  .node "class"
    [Tree.Build.constant none name, .nil,
     .node "block"
      [Tree.Build.call none "test" [Tree.Build.str "x"], .node "args" [] none,
       Tree.Build.begin statements] none] none

/-- An annotated class with a test in phases, and another class behind it. -/
def annotatedBefore (other : Tree) : Tree :=
  .node "begin" ((annotatedTests (Tree.Build.constant none "PhaseSpec")).children ++ [other]) none

/-- A class of another name, with a test in phases too. -/
def phasedClass : Tree :=
  classOf "U"
    [Tree.Build.call none "Expect" [],
     Tree.Build.call (some (Tree.Build.lvar "a")) "==" [Tree.Build.int 1]]

/-- Behind an annotated class the test of a class of another name is split or hidden. -/
theorem split_of_expandText_annotatedBefore :
    let text := (annotatedBefore phasedClass).layout 2
    ∃ t expanded noted final, readText "a.sexp" text = .ok t ∧ t.Unnested ∧
      (standard .strict 2).expandText "a.sexp" text = .ok expanded ∧
      Annotations.expand Annotations.standard (.ofText text) t = .ok (noted, final) ∧
      ∀ u, Outside u t → u.isTestBlock = true → u.Unannotated →
        (∃ blocks, Block.split u.location u.testStatements = .ok blocks) ∨
          Annotations.Hidden Annotations.standard final u t := by
  let sample := annotatedBefore phasedClass
  let placed := Tree.placed (.ofChars (sample.layout 2).toList) 2 0 0 sample
  have hreadable : sample.Readable := by
    unfold Tree.Readable
    decide
  have hread : readText "a.sexp" (sample.layout 2) = .ok placed :=
    Tree.readText_layout rfl hreadable "a.sexp"
  have hunnested : placed.Unnested := by
    decide
  have hparts : ∃ note children others location behind here place inner,
      placed = .node "begin" [note, .node "class" children location, .node "class" behind here]
        place ∧
      note.annotates = true ∧
      Annotations.apply Annotations.standard (.ofText (sample.layout 2)) note
        (.node "class" children location) = .ok (.node "class" others location) ∧
      (∀ c ∈ others, c.Unannotated) ∧ (∀ c ∈ [Tree.node "class" behind here], c.Unannotated) ∧
      Phases.expandAll .strict ((Context.ofText (sample.layout 2)).finish
        (.node "class" others location)) behind = .ok inner :=
    ⟨_, _, _, _, _, _, _, _, rfl, rfl, rfl, by decide, by decide, rfl⟩
  obtain ⟨note, children, others, location, behind, here, place, inner, hplaced, hnote, happlied,
    hplain, hbehind, hinner⟩ := hparts
  have hclass : (Tree.node "class" behind here).isTestBlock = false :=
    Tree.isTestBlock_eq_false (by decide : "class" ≠ "block")
  obtain ⟨other, hother⟩ := Phases.exists_expand_of_expandAll hclass hinner
  have hbuilt : Phases.expandAll .strict ((Context.ofText (sample.layout 2)).finish
      (.node "class" others location)) [.node "class" behind here] = .ok [other] := by
    rw [Phases.expandAll, hother, Phases.expandAll]
    rfl
  have hrun := @Annotations.runAll_target_cons (.ofText (sample.layout 2)) note "class" children
    others location place .strict 2 _ [other] hnote (by decide) happlied hplain hbehind hbuilt
  rw [← hplaced] at hrun
  have hdone : (standard .strict 2).expandText "a.sexp" (sample.layout 2) =
      .ok (.node "begin" [.node "class" others location, other] place) := by
    rw [expandText_layout _ _ rfl hreadable]
    exact hrun
  obtain ⟨noted, final, hnoted, hall⟩ := split_of_expandText hread hunnested hdone
  exact ⟨placed, _, noted, final, hread, hunnested, hdone, hnoted, hall⟩

/-- A class that is written like the annotated one when its test has been expanded. -/
def plainClass : Tree :=
  classOf "T" [Tree.Build.call none "assert_equal" [Tree.Build.int 1, Tree.Build.lvar "a"]]

/-- Its test has no phase and is accepted all the same. -/
theorem unsplit_of_expandText_plainClass :
    ∃ text t expanded u, readText "tmp" text = .ok t ∧ t.Unnested ∧
      (standard .strict 2).expandText "tmp" text = .ok expanded ∧
      Outside u t ∧ u.isTestBlock = true ∧ u.Unannotated ∧
      ¬ ∃ blocks, Block.split u.location u.testStatements = .ok blocks := by
  let sample := annotatedBefore plainClass
  let placed := Tree.placed (.ofChars (sample.layout 2).toList) 2 0 0 sample
  have hreadable : sample.Readable := by
    unfold Tree.Readable
    decide
  have hread : readText "tmp" (sample.layout 2) = .ok placed :=
    Tree.readText_layout rfl hreadable "tmp"
  have hunnested : placed.Unnested := by
    decide
  have hparts : ∃ note children others location name parent u here place cause,
      placed = .node "begin"
        [note, .node "class" children location, .node "class" [name, parent, u] here] place ∧
      note.annotates = true ∧
      Annotations.apply Annotations.standard (.ofText (sample.layout 2)) note
        (.node "class" children location) = .ok (.node "class" others location) ∧
      (∀ c ∈ others, c.Unannotated) ∧
      (∀ c ∈ [Tree.node "class" [name, parent, u] here], c.Unannotated) ∧
      (Tree.node "class" [name, parent, u] here).inlineChars =
        (Tree.node "class" others location).inlineChars ∧
      .node "class" [name, parent, u] here ∈ plainSiblings none placed.children ∧
      u ∈ plainSiblings none [name, parent, u] ∧ u.isTestBlock = true ∧ u.Unannotated ∧
      Block.split u.location u.testStatements = .error cause :=
    ⟨_, _, _, _, _, _, _, _, _, _, rfl, rfl, rfl, by decide, by decide, by decide +kernel,
      List.mem_of_getElem? (i := 0) rfl, List.mem_of_getElem? (i := 2) rfl, rfl, by decide, rfl⟩
  obtain ⟨note, children, others, location, name, parent, u, here, place, cause, hplaced, hnote,
    happlied, hplain, hbehind, hform, hsibling, hu, htest, hbare, hsplit⟩ := hparts
  have hfinished := (Context.ofText (sample.layout 2)).isFinished_finish
    (congrArg String.ofList hform)
  have hbuilt : Phases.expandAll .strict ((Context.ofText (sample.layout 2)).finish
      (.node "class" others location)) [.node "class" [name, parent, u] here] =
      .ok [.node "class" [name, parent, u] here] := by
    rw [Phases.expandAll, Phases.expand, if_pos (by rw [hfinished]; rfl), Phases.expandAll]
    rfl
  have hrun := @Annotations.runAll_target_cons (.ofText (sample.layout 2)) note "class" children
    others location place .strict 2 _ _ hnote (by decide) happlied hplain hbehind hbuilt
  rw [← hplaced] at hrun
  have houtside : Outside u placed := by
    rw [hplaced] at hsibling ⊢
    exact .child hsibling (.child hu (.self u))
  rw [← expandText_layout _ "tmp" rfl hreadable] at hrun
  refine ⟨_, placed, _, u, hread, hunnested, hrun, houtside, htest, hbare, ?_⟩
  rintro ⟨blocks, hblocks⟩
  cases hblocks.symm.trans hsplit

end Pipeline

end PhasedTests
