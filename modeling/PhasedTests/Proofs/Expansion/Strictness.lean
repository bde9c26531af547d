import PhasedTests.Proofs.Expansion.Phaseless

/-!
# What strictness adds

A strict expansion is a lenient one that moreover asks every test it meets for a phase. Where both
succeed they give the same tree, so in the standard chain, where annotations are expanded alike in
both modes, strictness only rejects.
-/

namespace PhasedTests

/-- Statements that split into blocks open with a phase. -/
theorem Block.hasPhases_of_split {test : Option Span} {statements : List Tree} {blocks : List Block}
    (hsplit : split test statements = .ok blocks) : hasPhases statements = true := by
  cases statements with
  | nil => cases hsplit
  | cons statement rest =>
    unfold split at hsplit
    rw [splitAfter] at hsplit
    split at hsplit
    · rename_i phase hintroduces
      unfold hasPhases
      rw [List.any_cons, hintroduces]
      rfl
    · cases hsplit

namespace Phases

variable {context : Context}

/-- The strict expansion of a test is the lenient one of a test with a phase. -/
theorem expandTest_strict_iff {t built : Tree} : expandTest .strict context t = .ok built ↔
    expandTest .lenient context t = .ok built ∧ hasPhases t.testStatements = true := by
  have hstrict : expandTest .strict context t =
      (TestMethod.parse context t >>= fun parsed => Generate.method parsed) := rfl
  cases hphases : hasPhases t.testStatements with
  | true =>
    have hlenient : expandTest .lenient context t =
        (TestMethod.parse context t >>= fun parsed => Generate.method parsed) := by
      unfold expandTest
      rw [hphases]
      rfl
    rw [hstrict, hlenient]
    exact ⟨fun hdone => ⟨hdone, rfl⟩, And.left⟩
  | false =>
    refine ⟨fun hdone => ?_, fun hboth => nomatch hboth.2⟩
    rw [hstrict] at hdone
    obtain ⟨parsed, hparse, -⟩ := ok_of_bind hdone
    obtain ⟨_, _, _, _, _, -, -, hsplit, -⟩ := TestMethod.parse_cases hparse
    rw [Block.hasPhases_of_split hsplit] at hphases
    cases hphases

/-- `Meets context u t` says that the expansion of `t` comes to `u`. It goes down into children, but
neither into a test block nor into a class or constant assignment that is finished. -/
inductive Meets (context : Context) : Tree → Tree → Prop where
  | self (t : Tree) : Meets context t t
  | child {u c : Tree} {tag : String} {children : List Tree} {location : Option Span}
      (hopen : (targetTags.contains tag &&
        context.isFinished (.node tag children location)) = false)
      (hother : (Tree.node tag children location).isTestBlock = false)
      (hc : c ∈ children) (hmeets : Meets context u c) :
      Meets context u (.node tag children location)

/-- Every test that the expansion of the tree comes to has a phase. -/
def MeetsPhases (context : Context) (t : Tree) : Prop :=
  ∀ u, Meets context u t → u.isTestBlock = true → hasPhases u.testStatements = true

/-- A tree that an expansion meets lies inside the expanded tree. -/
theorem Meets.inside {u t : Tree} (hmeets : Meets context u t) : Tree.Inside u t := by
  induction hmeets with
  | self => exact .self _
  | child _ _ hc _ ih => exact .child hc ih

section

variable {tag : String} {children : List Tree} {location : Option Span}

/-- The expansion of a leaf comes to no test. -/
theorem meetsPhases_leaf (value : Scalar) : MeetsPhases context (.leaf value) := by
  intro u hmeets htest
  cases hmeets
  cases htest

/-- In a finished class or constant assignment no test is met. -/
theorem meetsPhases_of_finished (hfinished : (targetTags.contains tag &&
    context.isFinished (.node tag children location)) = true) :
    MeetsPhases context (.node tag children location) := by
  intro u hmeets htest
  cases hmeets with
  | self =>
    have hblock : (Tree.node tag children location).tag ≠ "block" := by
      rintro hblock
      obtain rfl : tag = "block" := hblock
      exact absurd (Bool.and_eq_true_iff.mp hfinished).1 (by decide)
    rw [Tree.isTestBlock_eq_false hblock] at htest
    cases htest
  | child hopen =>
    rw [hfinished] at hopen
    cases hopen

/-- A test block is met itself and nothing in it is. -/
theorem meetsPhases_test (htest : (Tree.node tag children location).isTestBlock = true) :
    MeetsPhases context (.node tag children location) ↔
      hasPhases (Tree.node tag children location).testStatements = true := by
  refine ⟨fun hall => hall _ (.self _) htest, fun hphases u hmeets _ => ?_⟩
  cases hmeets with
  | self => exact hphases
  | child _ hother =>
    rw [htest] at hother
    cases hother

/-- In any other node the tests of its children are met. -/
theorem meetsPhases_node (hopen : (targetTags.contains tag &&
      context.isFinished (.node tag children location)) = false)
    (hother : (Tree.node tag children location).isTestBlock = false) :
    MeetsPhases context (.node tag children location) ↔
      ∀ c ∈ children, MeetsPhases context c := by
  refine ⟨fun hall c hc u hmeets => hall u (.child hopen hother hc hmeets),
    fun hall u hmeets htest => ?_⟩
  cases hmeets with
  | self =>
    rw [hother] at htest
    cases htest
  | child _ _ hc hmeets => exact hall _ hc u hmeets htest

end

mutual

/-- The strict expansion of a tree is the lenient one, provided that every test that is met has a
phase. -/
theorem expand_strict_iff : (t : Tree) → ∀ {expanded : Tree},
    expand .strict context t = .ok expanded ↔
      expand .lenient context t = .ok expanded ∧ MeetsPhases context t
  | .leaf value, expanded => by
    rw [expand, expand]
    exact ⟨fun hdone => ⟨hdone, meetsPhases_leaf value⟩, And.left⟩
  | .node tag children location, expanded => by
    rw [expand, expand]
    split
    · rename_i hfinished
      exact ⟨fun hdone => ⟨hdone, meetsPhases_of_finished hfinished⟩, And.left⟩
    · rename_i hopen
      rw [Bool.not_eq_true] at hopen
      split
      · rename_i htest
        rw [meetsPhases_test htest]
        exact expandTest_strict_iff
      · rename_i hother
        rw [Bool.not_eq_true] at hother
        rw [meetsPhases_node hopen hother]
        constructor
        · intro hdone
          obtain ⟨others, hothers, hdone⟩ := ok_of_bind hdone
          obtain ⟨hlenient, hall⟩ := (expandAll_strict_iff children).mp hothers
          rw [hlenient]
          exact ⟨hdone, hall⟩
        · rintro ⟨hdone, hall⟩
          obtain ⟨others, hothers, hdone⟩ := ok_of_bind hdone
          rw [(expandAll_strict_iff children).mpr ⟨hothers, hall⟩]
          exact hdone

private theorem expandAll_strict_iff : (trees : List Tree) → ∀ {others : List Tree},
    expandAll .strict context trees = .ok others ↔
      expandAll .lenient context trees = .ok others ∧ ∀ t ∈ trees, MeetsPhases context t
  | [], others => by
    rw [expandAll, expandAll]
    exact ⟨fun hdone => ⟨hdone, List.forall_mem_nil _⟩, And.left⟩
  | t :: rest, others => by
    rw [expandAll, expandAll, List.forall_mem_cons]
    constructor
    · intro hdone
      obtain ⟨first, hfirst, hdone⟩ := ok_of_bind hdone
      obtain ⟨later, hlater, hdone⟩ := ok_of_bind hdone
      obtain ⟨hlenientFirst, hmeets⟩ := (expand_strict_iff t).mp hfirst
      obtain ⟨hlenientLater, hall⟩ := (expandAll_strict_iff rest).mp hlater
      rw [hlenientFirst, hlenientLater]
      exact ⟨hdone, hmeets, hall⟩
    · rintro ⟨hdone, hmeets, hall⟩
      obtain ⟨first, hfirst, hdone⟩ := ok_of_bind hdone
      obtain ⟨later, hlater, hdone⟩ := ok_of_bind hdone
      rw [(expand_strict_iff t).mpr ⟨hfirst, hmeets⟩,
        (expandAll_strict_iff rest).mpr ⟨hlater, hall⟩]
      exact hdone

end

end Phases

/-! ## The standard chain -/

namespace Pass

variable {mode : Mode} {indent : Nat} {context : Context} {t expanded : Tree}

/-- The standard chain expands annotations, in either mode alike, and then phases. -/
theorem runAll_standard_iff :
    runAll context t (Pipeline.standard mode indent).chain = .ok expanded ↔
      ∃ noted final, Annotations.expand Annotations.standard context t = .ok (noted, final) ∧
        Phases.expand mode final noted = .ok expanded := by
  constructor
  · intro hdone
    obtain ⟨⟨noted, final⟩, hnoted, hrest⟩ := ok_of_bind hdone
    obtain ⟨⟨last, _⟩, hphases, hlast⟩ := ok_of_bind hrest
    obtain ⟨built, hbuilt, hpair⟩ := ok_of_map hphases
    obtain rfl := Except.ok.inj hlast
    obtain ⟨rfl, -⟩ := Prod.mk.inj hpair
    exact ⟨noted, final, hnoted, hbuilt⟩
  · rintro ⟨noted, final, hnoted, hbuilt⟩
    change (Annotations.expand Annotations.standard context t >>= _) = _
    rw [hnoted]
    change ((Phases.expand mode final noted).map _ >>= _) = _
    rw [hbuilt]
    rfl

/-- The strict chain returns a tree exactly when the lenient chain returns the same tree and every
test that its phase expansion meets has a phase. -/
theorem runAll_strict_iff_lenient :
    runAll context t (Pipeline.standard .strict indent).chain = .ok expanded ↔
      runAll context t (Pipeline.standard .lenient indent).chain = .ok expanded ∧
        ∃ noted final, Annotations.expand Annotations.standard context t = .ok (noted, final) ∧
          ∀ u, Phases.Meets final u noted → u.isTestBlock = true →
            hasPhases u.testStatements = true := by
  rw [runAll_standard_iff, runAll_standard_iff]
  constructor
  · rintro ⟨noted, final, hnoted, hstrict⟩
    obtain ⟨hlenient, hall⟩ := (Phases.expand_strict_iff noted).mp hstrict
    exact ⟨⟨noted, final, hnoted, hlenient⟩, noted, final, hnoted, hall⟩
  · rintro ⟨⟨noted, final, hnoted, hlenient⟩, noted', final', hnoted', hall⟩
    obtain ⟨rfl, rfl⟩ := Prod.mk.inj (Except.ok.inj (hnoted.symm.trans hnoted'))
    exact ⟨noted, final, hnoted, (Phases.expand_strict_iff noted).mpr ⟨hlenient, hall⟩⟩

end Pass

end PhasedTests
