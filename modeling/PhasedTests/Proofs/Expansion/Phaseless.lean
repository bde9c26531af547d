import PhasedTests.Proofs.Expansion.Readable
import PhasedTests.Proofs.Generate.Quiet
import PhasedTests.Proofs.Test.Nesting

/-!
# No phase is left

The phase expansion of a tree without nested tests leaves no test in phases: the statements of a
generated body introduce none, and no other test block comes into being. What has no phases is not
changed by a lenient expansion, so the expansion is idempotent.
-/

namespace PhasedTests

namespace Generate

open Tree.Build

/-- The index of a data row makes no test block of a name. -/
private theorem testFree_indexedTestName {t : Tree} (hfree : t.TestFree) :
    (indexedTestName t).TestFree := by
  unfold indexedTestName
  split
  · rename_i name hfound
    obtain ⟨old, hold, hname⟩ := Option.bind_eq_some_iff.mp hfound
    cases t with
    | leaf value => exact hfree
    | node tag children location =>
      obtain ⟨hnode, hchildren⟩ := Tree.testFree_node.mp hfree
      have hmem : old ∈ children :=
        List.mem_of_getElem? (Option.filter_eq_some_iff.mp hold).1
      refine Tree.testFree_node.mpr ⟨?_, fun c hc => ?_⟩
      · rw [← hnode]
        match children with
        | [] | [_] | _ :: _ :: _ => rfl
      · rcases List.mem_or_eq_of_mem_set hc with hc | rfl
        · exact hchildren c hc
        · exact assembly_testFree.of_indexedName? hname (hchildren old hmem)
  · exact hfree

/-- A test whose body is the frame of statements that introduce no phase. -/
private theorem settled_test {methodCall args : Tree} {statements cleanup : List Tree}
    {location : Option Span} (hquiet : Quiet statements) (hcall : methodCall.TestFree)
    (hargs : args.TestFree) (hbody : (cleanedUp statements cleanup).TestFree) :
    (Tree.node "block" [methodCall, args, cleanedUp statements cleanup] location).Settled := by
  have hchildren : ∀ c ∈ [methodCall, args, cleanedUp statements cleanup], c.TestFree := by
    simp only [List.forall_mem_cons]
    exact ⟨hcall, hargs, hbody, List.forall_mem_nil _⟩
  exact Tree.settled_node.mpr ⟨fun _ => ⟨hasPhases_cleanedUp hquiet _ _ _, hchildren⟩,
    fun c hc => (hchildren c hc).settled⟩

/-- The loop over the rows of a table runs one test, whose body is the frame of its statements. -/
private theorem settled_loop {definition : Ir.DefView} {table : Ir.TableView}
    {statements cleanup : List Tree} (hcall : definition.methodCall.TestFree)
    (hargs : definition.args.TestFree) (hbody : (cleanedUp statements cleanup).TestFree)
    (hquiet : Quiet statements) (hrows : ∀ row ∈ table.rows, row.TestFree) :
    (loop definition (cleanedUp statements cleanup) table).Settled := by
  have hnil : Tree.nil.TestFree := Tree.testFree_leaf .nil
  have hiteration := assembly_testFree.iteration (fun row hrow _ => hrows row hrow) hnil
  have hparams := @Assembly.loopParams _ .nil assembly_testFree table.header hnil
  have hlocals (t : Tree) (hfree : t.TestFree) := testFree_callsToLocals table.header t hfree
  refine Tree.settled_node.mpr ⟨fun htest => ?_, fun c hc => ?_⟩
  · obtain ⟨head, _, _, _, receives, hblock, hshape, -⟩ := Tree.isTestBlock_iff.mp htest
    rw [← (List.cons.inj (Tree.node.inj hblock).2.1).1] at hshape
    exact absurd (Prod.mk.inj (Option.some.inj hshape)).2 (by decide : "with_index" ≠ "test")
  · simp only [List.mem_cons, List.not_mem_nil, or_false] at hc
    rcases hc with rfl | rfl | rfl
    · exact hiteration.settled
    · exact hparams.settled
    · unfold fresh
      rw [callsToLocals_node _ (by decide), List.map_cons, List.map_cons, List.map_singleton,
        callsToLocals_cleanedUp]
      have hquietLocals := quiet_map (fun _ => introduces?_callsToLocals table.header) hquiet
      refine settled_test hquietLocals (hlocals _ (testFree_indexedTestName hcall))
        (hlocals _ hargs) ?_
      rw [← callsToLocals_cleanedUp]
      exact hlocals _ hbody

/-- The method that is generated from a test without tests inside has no phases, and its tests are
not nested either. -/
theorem settled_method {context : Context} {t test built : Tree}
    (hfree : ∀ c ∈ t.children, c.TestFree) (hparse : TestMethod.parse context t = .ok test)
    (hdone : method test = .ok built) : built.Settled := by
  have hparts : (Tree.node "begin" t.children none).TestFree :=
    Tree.testFree_node.mpr ⟨Tree.isTestBlock_eq_false (by decide : "begin" ≠ "block"), hfree⟩
  have htest : test.TestFree := by
    refine assembly_testFree.of_testParse hparse (fun c hc _ => hfree c hc) ?_ hparts
    intro span hspan
    refine ⟨.node "begin" [] t.location, fun _ => ?_, hspan⟩
    exact Tree.testFree_node.mpr
      ⟨Tree.isTestBlock_eq_false (by decide : "begin" ≠ "block"), fun c hc => nomatch hc⟩
  unfold method at hdone
  split at hdone
  · cases hdone
  · rename_i view hview
    obtain ⟨hcall, hargs, hphases, hrows⟩ := assembly_testFree.of_testView hview
    obtain ⟨body, hbody, hdone⟩ := ok_of_bind hdone
    have hbodyFree := assembly_testFree.of_methodBody hbody hphases htest
    obtain ⟨statements, cleanup, hquiet, rfl⟩ :=
      quiet_methodBody (TestMethod.quiet_of_parse hparse hview) hbody
    split at hdone
    · rename_i table htable
      rw [← Except.ok.inj hdone]
      exact settled_loop (hcall htest) (hargs htest) hbodyFree hquiet
        fun row hrow => hrows table htable row hrow htest
    · rw [← Except.ok.inj hdone]
      exact settled_test hquiet (hcall htest) (hargs htest) hbodyFree

end Generate

namespace Phases

variable {mode : Mode} {context : Context}

/-! ## Expanding makes no test blocks -/

private theorem scalar?_of_expand {t t' : Tree} (hdone : expand mode context t = .ok t') :
    t'.scalar? = t.scalar? := by
  cases t with
  | leaf value => rw [ok_of_expand_leaf hdone]
  | node tag children location =>
    rcases expand_cases hdone with rfl | ⟨-, others, rfl⟩ | ⟨others, -, rfl⟩
    · rfl
    · rfl
    · rfl

/-- Siblings are expanded one after the other. -/
theorem expandAll_cons {t : Tree} {rest others : List Tree}
    (hdone : expandAll mode context (t :: rest) = .ok others) :
    ∃ first later, expand mode context t = .ok first ∧ expandAll mode context rest = .ok later ∧
      others = first :: later := by
  rw [expandAll] at hdone
  obtain ⟨first, hfirst, hdone⟩ := ok_of_bind hdone
  obtain ⟨later, hlater, hdone⟩ := ok_of_bind hdone
  exact ⟨first, later, hfirst, hlater, (Except.ok.inj hdone).symm⟩

/-- The expansions of siblings, one by one. -/
theorem forall₂_of_expandAll {trees others : List Tree}
    (hdone : expandAll mode context trees = .ok others) :
    List.Forall₂ (fun t t' => expand mode context t = .ok t') trees others := by
  induction trees generalizing others with
  | nil =>
    rw [expandAll] at hdone
    rw [← Except.ok.inj hdone]
    exact .nil
  | cons t rest ih =>
    obtain ⟨first, later, hfirst, hlater, rfl⟩ := expandAll_cons hdone
    exact .cons hfirst (ih hlater)

/-- Expansion keeps the scalars of a list of trees. -/
theorem map_scalar?_of_expandAll {trees others : List Tree}
    (hdone : expandAll mode context trees = .ok others) :
    others.map Tree.scalar? = trees.map Tree.scalar? := by
  have hpairs := forall₂_of_expandAll hdone
  clear hdone
  induction hpairs with
  | nil => rfl
  | cons hfirst _ ih => rw [List.map_cons, List.map_cons, scalar?_of_expand hfirst, ih]

/-- Tags and calls are kept. -/
theorem sameHead_of_expand {t t' : Tree} (hdone : expand mode context t = .ok t') :
    t.SameHead t' := by
  cases t with
  | leaf value =>
    rw [ok_of_expand_leaf hdone]
    exact .refl _
  | node tag children location =>
    rcases expand_cases hdone with rfl | ⟨rfl, others, rfl⟩ | ⟨others, hothers, rfl⟩
    · exact .refl _
    · refine ⟨rfl, rfl, ?_⟩
      rw [Tree.callShape?_eq_none (by simp [Tree.tag]),
        Tree.callShape?_eq_none (by simp [Tree.tag])]
    · exact ⟨rfl, rfl, Tree.callShape?_congr (map_scalar?_of_expandAll hothers)⟩

/-- A node is no test block with its children expanded unless it was one before. -/
theorem isTestBlock_of_expandAll {tag : String} {children others : List Tree}
    {location : Option Span} (hdone : expandAll mode context children = .ok others)
    (htest : (Tree.node tag others location).isTestBlock = true) :
    (Tree.node tag children location).isTestBlock = true :=
  Tree.isTestBlock_of_sameHead
    ((forall₂_of_expandAll hdone).imp fun _ _ => sameHead_of_expand) htest

/-! ## The expansion of a tree -/

/-- Without annotations no target is finished. -/
theorem isFinished_eq_false (hfresh : context.finished = []) (t : Tree) :
    context.isFinished t = false := by
  unfold Context.isFinished
  rw [hfresh]
  rfl

section

variable {tag : String} {children others : List Tree} {location : Option Span} {t' : Tree}

/-- A test block is taken as a whole, whatever is finished. -/
theorem expand_test (htest : (Tree.node tag children location).isTestBlock = true) :
    expand mode context (.node tag children location) =
      expandTest mode context (.node tag children location) := by
  obtain ⟨_, _, _, _, _, hblock, -⟩ := Tree.isTestBlock_iff.mp htest
  obtain ⟨rfl, -⟩ := Tree.node.inj hblock
  have hopen : targetTags.contains "block" = false := by decide
  rw [expand, hopen, Bool.false_and, if_neg Bool.false_ne_true, if_pos htest]

/-- Any other node is expanded in its children, unless it is finished. -/
theorem expand_other (hopen : (targetTags.contains tag &&
      context.isFinished (.node tag children location)) = false)
    (hother : (Tree.node tag children location).isTestBlock = false)
    (hothers : expandAll mode context children = .ok others) :
    expand mode context (.node tag children location) = .ok (.node tag others location) := by
  rw [expand, hopen, if_neg Bool.false_ne_true, hother, if_neg Bool.false_ne_true, hothers]
  rfl

/-- A node that is neither finished nor a test is expanded in its children. -/
theorem ok_of_expand_other (hopen : (targetTags.contains tag &&
      context.isFinished (.node tag children location)) = false)
    (hother : (Tree.node tag children location).isTestBlock = false)
    (hdone : expand mode context (.node tag children location) = .ok t') :
    ∃ others, expandAll mode context children = .ok others ∧ t' = .node tag others location := by
  rw [expand, hopen, if_neg Bool.false_ne_true, hother, if_neg Bool.false_ne_true] at hdone
  obtain ⟨others, hothers, hdone⟩ := ok_of_bind hdone
  exact ⟨others, hothers, (Except.ok.inj hdone).symm⟩

/-- With nothing finished no target is passed over. -/
theorem open_of_fresh (hfresh : context.finished = []) : (targetTags.contains tag &&
    context.isFinished (.node tag children location)) = false := by
  rw [isFinished_eq_false hfresh, Bool.and_false]

end

/-- An expanded test block has no phases. -/
private theorem settled_of_expandTest {t t' : Tree} (htest : t.isTestBlock = true)
    (hunnested : t.Unnested) (hdone : expandTest mode context t = .ok t') : t'.Settled := by
  have hfree := hunnested t (.self t) htest
  unfold expandTest at hdone
  split at hdone
  · rename_i hleft
    obtain ⟨-, hphases⟩ := Bool.and_eq_true_iff.mp hleft
    rw [← Except.ok.inj hdone]
    cases t with
    | leaf value => exact Tree.settled_leaf value
    | node tag children location =>
      exact Tree.settled_node.mpr
        ⟨fun _ => ⟨Bool.not_eq_true' _ ▸ hphases, hfree⟩, fun c hc => (hfree c hc).settled⟩
  · obtain ⟨test, hparse, hmethod⟩ := ok_of_bind hdone
    exact Generate.settled_method hfree hparse hmethod

/-- Whatever the context takes for finished inside the tree has no phases. -/
def Trusts (context : Context) (t : Tree) : Prop :=
  ∀ u, Tree.Inside u t → context.isFinished u = true → u.Phaseless

/-- If nothing is finished, nothing has to be trusted. -/
theorem trusts_of_fresh (hfresh : context.finished = []) (t : Tree) : Trusts context t := by
  intro u _ hfinished
  rw [isFinished_eq_false hfresh] at hfinished
  cases hfinished

mutual

/-- The expansion of a tree without nested tests leaves no test in phases, as long as what it passes
over has none. -/
theorem settled_of_expand : ∀ {t t' : Tree}, Trusts context t → t.Unnested →
    expand mode context t = .ok t' → t'.Settled
  | .leaf value, t', _, _, hdone => by
    rw [ok_of_expand_leaf hdone]
    exact Tree.settled_leaf value
  | .node tag children location, t', htrusts, hunnested, hdone => by
    rcases ok_of_expand_node hdone with
      ⟨hfinished, rfl⟩ | ⟨htest, hdone⟩ | ⟨hother, others, hothers, rfl⟩
    · exact Tree.settled_iff.mpr ⟨htrusts _ (.self _) hfinished, hunnested⟩
    · exact settled_of_expandTest htest hunnested hdone
    · refine Tree.settled_node.mpr ⟨fun htest => ?_, ?_⟩
      · rw [isTestBlock_of_expandAll hothers htest] at hother
        cases hother
      · exact settled_of_expandAll (fun c hc u hu => htrusts u (.child hc hu))
          (Tree.unnested_node.mp hunnested).2 hothers

private theorem settled_of_expandAll : ∀ {trees others : List Tree},
    (∀ t ∈ trees, Trusts context t) →
    (∀ t ∈ trees, t.Unnested) → expandAll mode context trees = .ok others →
      ∀ t ∈ others, t.Settled
  | [], others, _, _, hdone, t, ht => by
    rw [expandAll] at hdone
    rw [← Except.ok.inj hdone] at ht
    cases ht
  | first :: rest, others, htrusts, hunnested, hdone, t, ht => by
    obtain ⟨first', later, hfirst, hlater, rfl⟩ := expandAll_cons hdone
    rcases List.mem_cons.mp ht with rfl | ht
    · exact settled_of_expand (htrusts first List.mem_cons_self)
        (hunnested first List.mem_cons_self) hfirst
    · exact settled_of_expandAll (fun c hc => htrusts c (List.mem_cons_of_mem _ hc))
        (fun c hc => hunnested c (List.mem_cons_of_mem _ hc)) hlater t ht

end

private theorem phaseless_of_expand (hfresh : context.finished = []) {t t' : Tree}
    (hunnested : t.Unnested) (hdone : expand mode context t = .ok t') : t'.Phaseless :=
  (Tree.settled_iff.mp (settled_of_expand (trusts_of_fresh hfresh t) hunnested hdone)).1

mutual

/-- A lenient expansion leaves a tree without phases alone. -/
theorem expand_of_phaseless (hfresh : context.finished = []) :
    ∀ {t : Tree}, t.Phaseless → expand .lenient context t = .ok t
  | .leaf value, _ => by rw [expand]
  | .node tag children location, hphaseless => by
    obtain ⟨hnode, hchildren⟩ := Tree.phaseless_node.mp hphaseless
    cases htest : (Tree.node tag children location).isTestBlock with
    | true =>
      rw [expand_test htest]
      unfold expandTest
      rw [hnode htest]
      rfl
    | false =>
      exact expand_other (open_of_fresh hfresh) htest (expandAll_of_phaseless hfresh hchildren)

private theorem expandAll_of_phaseless (hfresh : context.finished = []) :
    ∀ {trees : List Tree}, (∀ t ∈ trees, t.Phaseless) →
      expandAll .lenient context trees = .ok trees
  | [], _ => by rw [expandAll]
  | t :: rest, hphaseless => by
    rw [expandAll, expand_of_phaseless hfresh (hphaseless t List.mem_cons_self),
      expandAll_of_phaseless hfresh fun c hc => hphaseless c (List.mem_cons_of_mem _ hc)]
    rfl

end

/-- The expansion of a tree without nested tests leaves no test in phases, and a lenient expansion
of the result leaves it as it is. -/
theorem expand_idempotent {t t' : Tree} (hfresh : context.finished = []) (hunnested : t.Unnested)
    (hdone : expand mode context t = .ok t') :
    t'.Phaseless ∧ ∀ other : Context, other.finished = [] →
      expand .lenient other t' = .ok t' := by
  have hphaseless := phaseless_of_expand hfresh hunnested hdone
  exact ⟨hphaseless, fun _ hother => expand_of_phaseless hother hphaseless⟩

/-- A class with a test that has a data table. -/
def tableTests : Tree :=
  let word (name : String) := Tree.Build.call none name []
  let pair (method : String) (left right : Tree) := Tree.Build.call (some left) method [right]
  let number := Tree.Build.fresh "int" [.int 1]
  .node "class"
    [.node "block"
      [Tree.Build.call none "test" [Tree.Build.str "adds"], .node "args" [] none,
       .node "begin"
         [word "Expect", pair "==" (word "sum") (word "total"), word "Where",
          pair "|" (word "sum") (word "total"), pair "|" number number] none] none] none

/-- Its test becomes a loop without phases. -/
theorem expand_idempotent_tableTests :
    ∃ t', Context.detached.finished = [] ∧ tableTests.Unnested ∧
      expand .strict .detached tableTests = .ok t' ∧ t'.Phaseless ∧
      ∀ other : Context, other.finished = [] → expand .lenient other t' = .ok t' := by
  have hunnested : tableTests.Unnested := by decide
  have hdone : ∃ t', expand .strict .detached tableTests = .ok t' := ⟨_, rfl⟩
  obtain ⟨t', hdone⟩ := hdone
  exact ⟨t', rfl, hunnested, hdone, expand_idempotent rfl hunnested hdone⟩

end Phases

end PhasedTests
