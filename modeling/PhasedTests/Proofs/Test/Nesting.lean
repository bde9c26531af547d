import Mathlib.Data.List.Forall2
import PhasedTests.Proofs.Generate.Locals
import PhasedTests.Proofs.Ir.View
import PhasedTests.Proofs.Tree.Inside
import PhasedTests.Proofs.Tree.Shape
import PhasedTests.Expansion.Containment.Generate

/-!
# Test blocks inside a tree

Trees without test blocks, trees whose test blocks are not nested, and trees whose test blocks have
no phases. Everything that is assembled from the parts of a tree without test blocks has none.
-/

namespace PhasedTests

namespace Tree

/-- A test block is a block with a call of `test` and parameters. -/
theorem isTestBlock_iff {t : Tree} : t.isTestBlock = true ↔
    ∃ head params rest location receives, t = node "block" (head :: params :: rest) location ∧
      head.callShape? = some (receives, "test") ∧ params.hasTag "args" = true := by
  constructor
  · intro htest
    unfold isTestBlock at htest
    rw [Bool.and_eq_true, Bool.and_eq_true] at htest
    obtain ⟨⟨hblock, hcall⟩, hparams⟩ := htest
    cases t with
    | leaf value => cases hblock
    | node tag children location =>
      obtain rfl : tag = "block" := by simpa [hasTag, isNode, Tree.tag] using hblock
      cases children with
      | nil => exact absurd hcall (by simp [nodeAt?, Tree.children])
      | cons head others =>
        cases others with
        | nil => exact absurd hparams (by simp [nodeAt?, Tree.children])
        | cons params rest =>
          have hhead : ∃ receives, head.callShape? = some (receives, "test") := by
            split at hcall
            · rename_i call hfound
              obtain ⟨found, hzero, hfound⟩ := Option.bind_eq_some_iff.mp hfound
              obtain rfl : head = found :=
                Option.some.inj (Option.filter_eq_some_iff.mp hzero).1
              refine ⟨call.receiver.isSome, ?_⟩
              rw [callShape?, hfound, Option.map_some, beq_iff_eq.mp hcall]
            · cases hcall
          have hargs : params.hasTag "args" = true := by
            split at hparams
            · rename_i args hfound
              rw [nodeAt?_succ] at hfound
              obtain rfl : params = args :=
                Option.some.inj (Option.filter_eq_some_iff.mp hfound).1
              exact hparams
            · cases hparams
          obtain ⟨receives, hshape⟩ := hhead
          exact ⟨head, params, rest, location, receives, rfl, hshape, hargs⟩
  · rintro ⟨head, params, rest, location, receives, rfl, hshape, hargs⟩
    obtain ⟨call, hcall, hpair⟩ := Option.map_eq_some_iff.mp hshape
    have hhead : head.isNode = true := by
      cases head with
      | leaf value => cases hcall
      | node => rfl
    have hparams : params.isNode = true := (Bool.and_eq_true_iff.mp hargs).1
    unfold isTestBlock
    rw [hasTag_self, nodeAt?_succ, nodeAt?_zero hhead, nodeAt?_zero hparams, Option.bind_some,
      hcall]
    simp only [hargs, (Prod.mk.inj hpair).2, Bool.and_true, beq_self_eq_true]

/-- Only blocks are tests. -/
theorem isTestBlock_eq_false {t : Tree} (htag : t.tag ≠ "block") : t.isTestBlock = false := by
  cases htest : t.isTestBlock with
  | false => rfl
  | true =>
    obtain ⟨head, params, rest, location, receives, rfl, -⟩ := isTestBlock_iff.mp htest
    exact absurd rfl htag

/-- Trees that agree in their tags and in the shape of their calls. -/
structure SameHead (a b : Tree) : Prop where
  isNode : b.isNode = a.isNode
  tag : b.tag = a.tag
  callShape : b.callShape? = a.callShape?

/-- A tree has its own head. -/
theorem SameHead.refl (t : Tree) : t.SameHead t :=
  ⟨rfl, rfl, rfl⟩

/-- Having the same head goes both ways. -/
theorem SameHead.symm {a b : Tree} (hsame : a.SameHead b) : b.SameHead a :=
  ⟨hsame.isNode.symm, hsame.tag.symm, hsame.callShape.symm⟩

/-- Whether a node is a test block is told by its tag and by the heads of its first two children. -/
theorem isTestBlock_of_sameHead_take {tag : String} {children others : List Tree}
    {location place : Option Span}
    (hsame : List.Forall₂ SameHead (children.take 2) (others.take 2))
    (htest : (node tag others place).isTestBlock = true) :
    (node tag children location).isTestBlock = true := by
  obtain ⟨head', params', rest', _, receives, hblock, hshape, hargs⟩ := isTestBlock_iff.mp htest
  obtain ⟨rfl, rfl, -⟩ := node.inj hblock
  match children, hsame with
  | head :: params :: rest, .cons hhead (.cons hparams _) =>
    refine isTestBlock_iff.mpr
      ⟨head, params, rest, location, receives, rfl, hhead.callShape ▸ hshape, ?_⟩
    unfold hasTag at hargs ⊢
    rw [← hparams.isNode, ← hparams.tag]
    exact hargs

/-- Whether a node is a test is told by the heads of its children. -/
theorem isTestBlock_of_sameHead {tag : String} {children others : List Tree}
    {location place : Option Span} (hsame : List.Forall₂ SameHead children others)
    (htest : (node tag others place).isTestBlock = true) :
    (node tag children location).isTestBlock = true :=
  isTestBlock_of_sameHead_take (List.forall₂_take 2 hsame) htest

/-- The tree has no test blocks. -/
def TestFree (t : Tree) : Prop :=
  ∀ u, Inside u t → u.isTestBlock = false

/-- No test block of the tree lies inside another one. -/
def Unnested (t : Tree) : Prop :=
  ∀ u, Inside u t → u.isTestBlock = true → ∀ c ∈ u.children, c.TestFree

/-- No test block of the tree has a phase. -/
def Phaseless (t : Tree) : Prop :=
  ∀ u, Inside u t → u.isTestBlock = true → hasPhases u.testStatements = false

/-- No test block of the tree has a phase or lies inside another one. -/
def Settled (t : Tree) : Prop :=
  ∀ u, Inside u t → u.isTestBlock = true →
    hasPhases u.testStatements = false ∧ ∀ c ∈ u.children, c.TestFree

instance : DecidablePred TestFree :=
  decideInside fun u => u.isTestBlock = false

instance : DecidablePred Unnested :=
  decideInside fun u => u.isTestBlock = true → ∀ c ∈ u.children, c.TestFree

instance : DecidablePred Phaseless :=
  decideInside fun u => u.isTestBlock = true → hasPhases u.testStatements = false

section

variable {tag : String} {children : List Tree} {location : Option Span}

/-- A leaf is free of tests. -/
theorem testFree_leaf (value : Scalar) : (leaf value).TestFree :=
  forall_inside_leaf.mpr rfl

/-- A node is free of tests if it is none and its children are free of tests. -/
theorem testFree_node : (node tag children location).TestFree ↔
    (node tag children location).isTestBlock = false ∧ ∀ c ∈ children, c.TestFree :=
  forall_inside_node

/-- No tests are nested in a node if none lie inside it when it is a test, and none are nested in
its children. -/
theorem unnested_node : (node tag children location).Unnested ↔
    ((node tag children location).isTestBlock = true → ∀ c ∈ children, c.TestFree) ∧
      ∀ c ∈ children, c.Unnested :=
  forall_inside_node

/-- A node has no phases if it is no test in phases and its children have none. -/
theorem phaseless_node : (node tag children location).Phaseless ↔
    ((node tag children location).isTestBlock = true →
      hasPhases (node tag children location).testStatements = false) ∧
      ∀ c ∈ children, c.Phaseless :=
  forall_inside_node

/-- A leaf is settled. -/
theorem settled_leaf (value : Scalar) : (leaf value).Settled :=
  forall_inside_leaf.mpr fun htest => nomatch htest

/-- A node is settled if it is no test in phases and around no test, and its children are
settled. -/
theorem settled_node : (node tag children location).Settled ↔
    ((node tag children location).isTestBlock = true →
      hasPhases (node tag children location).testStatements = false ∧
        ∀ c ∈ children, c.TestFree) ∧ ∀ c ∈ children, c.Settled :=
  forall_inside_node

/-- Without test blocks nothing has to be settled. -/
theorem TestFree.settled {t : Tree} (hfree : t.TestFree) : t.Settled := by
  intro u hinside htest
  rw [hfree u hinside] at htest
  cases htest

/-- A tree is settled if it has neither phases nor nested tests. -/
theorem settled_iff {t : Tree} : t.Settled ↔ t.Phaseless ∧ t.Unnested := by
  constructor
  · exact fun hsettled => ⟨fun u hinside htest => (hsettled u hinside htest).1,
      fun u hinside htest => (hsettled u hinside htest).2⟩
  · rintro ⟨hphaseless, hunnested⟩ u hinside htest
    exact ⟨hphaseless u hinside htest, hunnested u hinside htest⟩

end

end Tree

namespace Tree

/-! ## Spans do not matter -/

private theorem callShape?_bare (t : Tree) : t.bare.callShape? = t.callShape? := by
  cases t with
  | leaf value => rfl
  | node tag children location =>
    have hscalars : (bareAll children).map scalar? = children.map scalar? := by
      rw [bareAll_eq_map, List.map_map]
      exact List.map_congr_left fun c _ => by cases c <;> rfl
    exact callShape?_congr hscalars

private theorem introduces?_bare (t : Tree) : t.bare.introduces? = t.introduces? := by
  rw [introduces?_eq, introduces?_eq, callShape?_bare]

private theorem sameHead_bare (t : Tree) : t.SameHead t.bare :=
  ⟨isNode_bare t, by cases t <;> rfl, callShape?_bare t⟩

private theorem isTestBlock_of_bare {t : Tree} (htest : t.bare.isTestBlock = true) :
    t.isTestBlock = true := by
  cases t with
  | leaf value => exact htest
  | node tag children location =>
    have hsame : List.Forall₂ SameHead children (bareAll children) := by
      rw [bareAll_eq_map, List.forall₂_map_right_iff]
      exact List.forall₂_same.mpr fun c _ => sameHead_bare c
    exact isTestBlock_of_sameHead hsame htest

private theorem isTestBlock_bare (t : Tree) : t.bare.isTestBlock = t.isTestBlock := by
  rw [Bool.eq_iff_iff]
  refine ⟨isTestBlock_of_bare, fun htest => ?_⟩
  obtain ⟨head, params, rest, location, receives, rfl, hshape, hargs⟩ := isTestBlock_iff.mp htest
  rw [← callShape?_bare] at hshape
  rw [← hasTag_bare] at hargs
  exact isTestBlock_iff.mpr
    ⟨head.bare, params.bare, bareAll rest, none, receives, rfl, hshape, hargs⟩

private theorem hasPhases_bare (t : Tree) :
    hasPhases t.bare.testStatements = hasPhases t.testStatements := by
  have hstatements : t.bare.testStatements = t.testStatements.map bare := by
    unfold testStatements
    rw [nodeAt?_bare]
    cases t.nodeAt? 2 with
    | none => rfl
    | some body =>
      have hnodes : body.bare.childNodes = body.childNodes.map bare := by
        unfold childNodes nodesOf
        rw [children_bare, List.filter_map]
        exact congrArg (List.map bare) (List.filter_congr fun c _ => isNode_bare c)
      rw [Option.map_some]
      dsimp only
      rw [hasTag_bare, hnodes]
      split <;> rfl
  unfold hasPhases
  rw [hstatements, List.any_map]
  exact congrArg t.testStatements.any (funext fun s => by
    rw [Function.comp_apply, introduces?_bare])

/-- What lies inside a tree has a counterpart in every tree of the same shape. -/
theorem exists_inside_of_bare {a b v : Tree} (hinside : Inside v b) (hshape : a.bare = b.bare) :
    ∃ u, Inside u a ∧ u.bare = v.bare := by
  induction hinside generalizing a with
  | self => exact ⟨a, .self a, hshape⟩
  | @child c tag children location hmem _ ih =>
    have hchildren : a.children.map bare = children.map bare := by
      rw [← children_bare, hshape, children_bare]
      rfl
    have hc : c.bare ∈ a.children.map bare := by
      rw [hchildren]
      exact List.mem_map_of_mem hmem
    obtain ⟨d, hd, hsame⟩ := List.mem_map.mp hc
    obtain ⟨u, hu, hshape⟩ := ih hsame
    exact ⟨u, hu.of_child hd, hshape⟩

/-- Whether tests have phases is told by the shape of a tree. -/
theorem Phaseless.of_bare {a b : Tree} (hphaseless : a.Phaseless) (hshape : a.bare = b.bare) :
    b.Phaseless := by
  intro v hinside htest
  obtain ⟨u, hu, hsame⟩ := exists_inside_of_bare hinside hshape
  rw [← isTestBlock_bare, ← hsame, isTestBlock_bare] at htest
  rw [← hasPhases_bare, ← hsame, hasPhases_bare]
  exact hphaseless u hu htest

end Tree

namespace Generate

variable (names : List String)

private theorem hasTag_of_callsToLocals {t : Tree} {tag : String} (hother : tag ≠ "lvar")
    (htag : (callsToLocals names t).hasTag tag = true) : t.hasTag tag = true := by
  cases t with
  | leaf value =>
    rw [callsToLocals] at htag
    exact htag
  | node found children location =>
    rcases callsToLocals_cases names found children location with ⟨name, hlocal⟩ | hkept
    · rw [hlocal] at htag
      have hsame : "lvar" = tag := beq_iff_eq.mp htag
      exact absurd hsame.symm hother
    · rw [hkept] at htag
      exact htag

/-- Only a test block is a test block when its locals are read. -/
theorem isTestBlock_of_callsToLocals {t : Tree}
    (htest : (callsToLocals names t).isTestBlock = true) : t.isTestBlock = true := by
  obtain ⟨head', params', rest', place, receives, hblock, hshape, hargs⟩ :=
    Tree.isTestBlock_iff.mp htest
  cases t with
  | leaf value =>
    rw [callsToLocals] at hblock
    cases hblock
  | node tag children location =>
    rcases callsToLocals_cases names tag children location with ⟨name, hlocal⟩ | hkept
    · rw [hlocal] at hblock
      exact absurd (Tree.node.inj hblock).1 (by decide)
    · rw [hkept] at hblock
      obtain ⟨rfl, hchildren, rfl⟩ := Tree.node.inj hblock
      obtain ⟨head, others, rfl, rfl, hothers⟩ := List.map_eq_cons_iff.mp hchildren
      obtain ⟨params, rest, rfl, rfl, -⟩ := List.map_eq_cons_iff.mp hothers
      have hhead : head.callShape? = some (receives, "test") := by
        rcases callShape?_callsToLocals names head with hnone | hsame
        · rw [hnone] at hshape
          cases hshape
        · rw [← hsame, hshape]
      exact Tree.isTestBlock_iff.mpr ⟨head, params, rest, location, receives, rfl, hhead,
        hasTag_of_callsToLocals names (by decide) hargs⟩

/-- Reading locals makes no test blocks. -/
theorem testFree_callsToLocals (t : Tree) (hfree : t.TestFree) :
    (callsToLocals names t).TestFree := by
  match t with
  | .leaf value =>
    rw [callsToLocals]
    exact Tree.testFree_leaf value
  | .node tag children location =>
    obtain ⟨hnode, hchildren⟩ := Tree.testFree_node.mp hfree
    have hother : (callsToLocals names (.node tag children location)).isTestBlock = false := by
      cases htest : (callsToLocals names (.node tag children location)).isTestBlock with
      | false => rfl
      | true =>
        rw [isTestBlock_of_callsToLocals names htest] at hnode
        cases hnode
    rcases callsToLocals_cases names tag children location with ⟨name, hlocal⟩ | hkept
    · rw [hlocal] at hother ⊢
      refine Tree.testFree_node.mpr ⟨hother, fun c hc => ?_⟩
      rw [List.mem_singleton.mp hc]
      exact Tree.testFree_leaf _
    · rw [hkept] at hother ⊢
      refine Tree.testFree_node.mpr ⟨hother, fun c hc => ?_⟩
      obtain ⟨d, hd, rfl⟩ := List.mem_map.mp hc
      exact testFree_callsToLocals d (hchildren d hd)

end Generate

/-- To have no test blocks is a comparison that everything assembled from a tree obeys. -/
theorem assembly_testFree : Assembly fun a b => b.TestFree → a.TestFree where
  refl _ hfree := hfree
  trans hfirst hsecond hfree := hfirst (hsecond hfree)
  leaf value _ _ := Tree.testFree_leaf value
  child hmember hfree := (Tree.testFree_node.mp hfree).2 _ hmember
  generated {tag _ _ _} hknown hparts _ hfree := by
    have hother : tag ≠ "block" := by
      rintro rfl
      exact absurd hknown (by decide)
    exact Tree.testFree_node.mpr
      ⟨Tree.isTestBlock_eq_false hother, fun c hc => hparts c hc hfree⟩
  call _ hreceiver hargs hfree :=
    Tree.testFree_node.mpr ⟨Tree.isTestBlock_eq_false (by decide : "send" ≠ "block"),
      Tree.Build.forall_children_call Tree.testFree_leaf (fun r hr => hreceiver r hr hfree)
        fun a ha => hargs a ha hfree⟩
  block {head params body _} hother hhead hparams hbody hfree := by
    refine Tree.testFree_node.mpr ⟨?_, ?_⟩
    · cases htest : (Tree.node "block" [head, params, body] none).isTestBlock with
      | false => rfl
      | true =>
        obtain ⟨first, _, _, _, receives, hblock, hshape, -⟩ := Tree.isTestBlock_iff.mp htest
        obtain ⟨-, hchildren, -⟩ := Tree.node.inj hblock
        obtain ⟨call, hcall, hpair⟩ := Option.map_eq_some_iff.mp hshape
        rw [← (List.cons.inj hchildren).1] at hcall
        exact absurd (Prod.mk.inj hpair).2 (hother call hcall)
    · intro c hc
      simp only [List.mem_cons, List.not_mem_nil, or_false] at hc
      rcases hc with rfl | rfl | rfl
      · exact hhead hfree
      · exact hparams hfree
      · exact hbody hfree
  moved {a} _ _ hpart _ hfree := by
    cases a with
    | leaf value => exact Tree.testFree_leaf value
    | node tag children location =>
      obtain ⟨hnode, hchildren⟩ := Tree.testFree_node.mp (hpart hfree)
      exact Tree.testFree_node.mpr ⟨hnode, hchildren⟩
  locals names t := Generate.testFree_callsToLocals names t

end PhasedTests
