import PhasedTests.Proofs.Expansion.Phaseless

/-!
# The tests of a file

The expansion meets the test blocks that lie in no other test block. Each of them is expanded on
its own, and the result takes its place.
-/

namespace PhasedTests

namespace Tree

mutual

/-- The test blocks of a tree that lie in no other test block, with their paths. -/
def outerTests : Tree → List (List Nat × Tree)
  | leaf _ => []
  | node tag children location =>
    let t := node tag children location
    if t.isTestBlock then [([], t)] else outerTestsAll 0 children

/-- Those of the trees of a list whose first one has this index. -/
def outerTestsAll (index : Nat) : List Tree → List (List Nat × Tree)
  | [] => []
  | t :: rest =>
    (outerTests t).map (fun entry => (index :: entry.1, entry.2)) ++
      outerTestsAll (index + 1) rest

end

private theorem isNode_of_mem_outerTests {t : Tree} {entry : List Nat × Tree}
    (hmem : entry ∈ t.outerTests) : t.isNode = true := by
  cases t with
  | leaf value => cases hmem
  | node => rfl

/-- The outermost tests of a list are those of its trees, each behind the index of its tree. -/
theorem mem_outerTestsAll {trees : List Tree} {first : Nat} {path : List Nat} {u : Tree} :
    (path, u) ∈ outerTestsAll first trees ↔ ∃ index child below, trees[index]? = some child ∧
      path = (first + index) :: below ∧ (below, u) ∈ child.outerTests := by
  induction trees generalizing first with
  | nil => simp [outerTestsAll]
  | cons t rest ih =>
    rw [outerTestsAll, List.mem_append, ih, List.mem_map]
    constructor
    · rintro (⟨⟨below, u⟩, hmem, hentry⟩ | ⟨index, child, below, hchild, hpath, hmem⟩)
      · obtain ⟨rfl, rfl⟩ := Prod.mk.inj hentry
        exact ⟨0, t, below, rfl, rfl, hmem⟩
      · refine ⟨index + 1, child, below, hchild, ?_, hmem⟩
        rw [hpath, Nat.add_right_comm, Nat.add_assoc]
    · rintro ⟨_ | index, child, below, hchild, rfl, hmem⟩
      · obtain rfl := Option.some.inj hchild
        exact .inl ⟨(below, u), hmem, rfl⟩
      · refine .inr ⟨index, child, below, hchild, ?_, hmem⟩
        rw [Nat.add_right_comm, Nat.add_assoc]

/-- A test block is itself the only one. -/
theorem outerTests_test {t : Tree} (htest : t.isTestBlock = true) : t.outerTests = [([], t)] := by
  cases t with
  | leaf value => cases htest
  | node tag children location => rw [outerTests, if_pos htest]

/-- In any other tree they are those of the children. -/
theorem outerTests_other {t : Tree} (hother : t.isTestBlock = false) :
    t.outerTests = outerTestsAll 0 t.children := by
  cases t with
  | leaf value => rfl
  | node tag children location =>
    rw [outerTests, hother]
    rfl

/-- A tree is its own outermost test if it is a test. -/
theorem nil_mem_outerTests {t u : Tree} :
    ([], u) ∈ t.outerTests ↔ t = u ∧ u.isTestBlock = true := by
  cases htest : t.isTestBlock with
  | true =>
    rw [outerTests_test htest, List.mem_singleton, Prod.mk.injEq]
    constructor
    · rintro ⟨-, rfl⟩
      exact ⟨rfl, htest⟩
    · rintro ⟨rfl, -⟩
      exact ⟨rfl, rfl⟩
  | false =>
    rw [outerTests_other htest, mem_outerTestsAll]
    constructor
    · rintro ⟨_, _, _, -, hpath, -⟩
      cases hpath
    · rintro ⟨rfl, hblock⟩
      rw [htest] at hblock
      cases hblock

/-- Any other tree has the outermost tests of its child nodes. -/
theorem cons_mem_outerTests {t u : Tree} {index : Nat} {path : List Nat} :
    (index :: path, u) ∈ t.outerTests ↔ t.isTestBlock = false ∧
      ∃ child, t.nodeAt? index = some child ∧ (path, u) ∈ child.outerTests := by
  cases htest : t.isTestBlock with
  | true => simp [outerTests_test htest]
  | false =>
    rw [outerTests_other htest, mem_outerTestsAll]
    constructor
    · rintro ⟨_, child, _, hchild, hpath, hmem⟩
      obtain ⟨rfl, rfl⟩ := List.cons.inj hpath
      rw [Nat.zero_add]
      exact ⟨rfl, child,
        Option.filter_eq_some_iff.mpr ⟨hchild, isNode_of_mem_outerTests hmem⟩, hmem⟩
    · rintro ⟨-, child, hchild, hmem⟩
      refine ⟨index, child, path, (Option.filter_eq_some_iff.mp hchild).1, ?_, hmem⟩
      rw [Nat.zero_add]

/-- They are the test blocks that a path from the root leads to without entering another one. -/
theorem mem_outerTests_iff {t u : Tree} {path : List Nat} :
    (path, u) ∈ t.outerTests ↔ t.dig? path = some u ∧ u.isTestBlock = true ∧
      ∀ above below v, path = above ++ below → below ≠ [] → t.dig? above = some v →
        v.isTestBlock = false := by
  induction path generalizing t with
  | nil =>
    rw [nil_mem_outerTests, dig?, Option.some.injEq]
    refine and_congr_right fun _ => (and_iff_left ?_).symm
    intro above below v hpath hbelow _
    exact absurd (List.append_eq_nil_iff.mp hpath.symm).2 hbelow
  | cons index path ih =>
    rw [cons_mem_outerTests, dig?, Option.bind_eq_some_iff]
    constructor
    · rintro ⟨hother, child, hchild, hmem⟩
      obtain ⟨hdig, htest, hfirst⟩ := ih.mp hmem
      refine ⟨⟨child, hchild, hdig⟩, htest, ?_⟩
      rintro (_ | ⟨step, above⟩) below v hpath hbelow hv
      · obtain rfl := Option.some.inj hv
        exact hother
      · obtain ⟨rfl, hrest⟩ := List.cons.inj hpath
        rw [dig?, hchild, Option.bind_some] at hv
        exact hfirst above below v hrest hbelow hv
    · rintro ⟨⟨child, hchild, hdig⟩, htest, hfirst⟩
      refine ⟨hfirst [] (index :: path) t rfl (List.cons_ne_nil index path) rfl, child, hchild, ?_⟩
      refine ih.mpr ⟨hdig, htest, fun above below v hpath hbelow hv => ?_⟩
      refine hfirst (index :: above) below v (congrArg (index :: ·) hpath) hbelow ?_
      rw [dig?, hchild, Option.bind_some, hv]

/-- The outermost tests of a tree lie inside it. -/
theorem inside_of_mem_outerTests {t : Tree} {entry : List Nat × Tree}
    (hmem : entry ∈ t.outerTests) : Inside entry.2 t :=
  inside_of_dig? (mem_outerTests_iff.mp hmem).1

mutual

/-- They are met in the order of their paths. -/
theorem pairwise_outerTests : (t : Tree) → (t.outerTests.map Prod.fst).Pairwise (· < ·)
  | leaf _ => .nil
  | node tag children location => by
    rw [outerTests]
    split
    · exact List.pairwise_singleton _ _
    · exact pairwise_outerTestsAll children 0

private theorem pairwise_outerTestsAll : (trees : List Tree) → (first : Nat) →
    ((outerTestsAll first trees).map Prod.fst).Pairwise (· < ·)
  | [], _ => .nil
  | t :: rest, first => by
    rw [outerTestsAll, List.map_append, List.map_map, List.pairwise_append]
    refine ⟨?_, pairwise_outerTestsAll rest (first + 1), ?_⟩
    · have hinner := List.pairwise_map.mp (pairwise_outerTests t)
      exact List.pairwise_map.mpr (hinner.imp fun hless =>
        List.cons_lt_cons_iff.mpr (.inr ⟨rfl, hless⟩))
    · intro path hpath later hlater
      obtain ⟨entry, -, rfl⟩ := List.mem_map.mp hpath
      obtain ⟨⟨_, u⟩, hmem, rfl⟩ := List.mem_map.mp hlater
      obtain ⟨index, child, below, -, rfl, -⟩ := mem_outerTestsAll.mp hmem
      exact List.cons_lt_cons_iff.mpr (.inl (by omega))

end

end Tree

namespace Phases

variable {mode : Mode} {context : Context}

/-- The expansion of a test block is that of the test. -/
theorem expand_of_isTestBlock {t : Tree} (htest : t.isTestBlock = true) :
    expand mode context t = expandTest mode context t := by
  cases t with
  | leaf value => cases htest
  | node tag children location => exact expand_test htest

/-- With nothing finished, the nodes in a tree that is no test block are expanded in their
places. -/
theorem nodeAt?_of_expand (hfresh : context.finished = []) {t expanded child : Tree} {index : Nat}
    (hother : t.isTestBlock = false) (hdone : expand mode context t = .ok expanded)
    (hchild : t.nodeAt? index = some child) :
    ∃ child', expand mode context child = .ok child' ∧ expanded.nodeAt? index = some child' := by
  obtain ⟨hindex, hnode⟩ := Option.filter_eq_some_iff.mp hchild
  cases t with
  | leaf value => cases hindex
  | node tag children location =>
    obtain ⟨others, hothers, rfl⟩ := ok_of_expand_other (open_of_fresh hfresh) hother hdone
    have hpairs := forall₂_of_expandAll hothers
    obtain ⟨hless, rfl⟩ := List.getElem?_eq_some_iff.mp hindex
    have hless' : index < others.length := hpairs.length_eq ▸ hless
    have hexpanded : expand mode context (children.get ⟨index, hless⟩) = .ok others[index] :=
      hpairs.get hless hless'
    refine ⟨others[index], hexpanded, Option.filter_eq_some_iff.mpr ⟨?_, ?_⟩⟩
    · exact List.getElem?_eq_getElem hless'
    · exact isNode_of_expand hexpanded hnode

/-- The expansion of a test that lies in no other one stands at the path of the test. -/
theorem expandTest_of_mem_outerTests (hfresh : context.finished = []) {t expanded u : Tree}
    {path : List Nat} (hdone : expand mode context t = .ok expanded)
    (hmem : (path, u) ∈ t.outerTests) :
    ∃ built, expandTest mode context u = .ok built ∧ expanded.dig? path = some built := by
  induction path generalizing t expanded with
  | nil =>
    obtain ⟨rfl, htest⟩ := Tree.nil_mem_outerTests.mp hmem
    rw [expand_of_isTestBlock htest] at hdone
    exact ⟨expanded, hdone, rfl⟩
  | cons index path ih =>
    obtain ⟨hother, child, hchild, hmem⟩ := Tree.cons_mem_outerTests.mp hmem
    obtain ⟨child', hchildDone, hfound⟩ := nodeAt?_of_expand hfresh hother hdone hchild
    obtain ⟨built, hbuilt, hdig⟩ := ih hchildDone hmem
    exact ⟨built, hbuilt, by rw [Tree.dig?, hfound, Option.bind_some, hdig]⟩

end Phases

end PhasedTests
