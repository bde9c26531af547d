import PhasedTests.Proofs.Expansion.Tests
import PhasedTests.Proofs.Generate.Failure
import PhasedTests.Proofs.Generate.Message
import PhasedTests.Proofs.Test.Source

/-!
# Source text and messages

Two expansions of one tree that know different source texts fail with the same error, or both
succeed and their results differ at most in the messages of the assertions of generic statements.
No step looks at a source text: the parsed tests carry it along, and each assertion repeats it.
-/

namespace PhasedTests

variable {made : Tree → Tree → Prop} {first second : Context}

/-! ## Generating a test twice -/

namespace Generate

open Tree.Build

/-- In a loop the columns are locals of the body. -/
theorem Resaid.loop {definition : Ir.DefView} {body other : Tree} {table : Ir.TableView}
    (hbody : Resaid made (callsToLocals table.header body) (callsToLocals table.header other)) :
    Resaid made (Generate.loop definition body table) (Generate.loop definition other table) := by
  unfold Generate.loop fresh
  dsimp only
  rw [callsToLocals_node _ (by decide), callsToLocals_node _ (by decide)]
  refine .node (.cons (.same _) (.cons (.same _) (.cons ?_ .nil)))
  exact .node (.cons (.same _) (.cons (.same _) (.cons hbody .nil)))

/-- The methods that are generated from a test read in two contexts. -/
theorem agree_method {t test other : Tree} (hfirst : TestMethod.parse first t = .ok test)
    (hsecond : TestMethod.parse second t = .ok other)
    (hmade : ∀ names s, IsGeneric t.testStatements s →
      made (asserted first names s) (asserted second names s)) :
    Agree (Resaid made) (method test) (method other) := by
  have hbody (names : List String) :=
    resaid_body t.allNodes_testStatements (hmade names)
  cases hdone : method test with
  | error e =>
    rw [(method_error_iff hsecond e).mpr ((method_error_iff hfirst e).mp hdone)]
    exact .error e
  | ok built =>
    have hraises := raises_of_method hfirst hdone
    obtain ⟨methodCall, args, hcall, hargs, hcase⟩ := method_cases hfirst hraises
    obtain ⟨methodCall', args', hcall', hargs', hother⟩ := method_cases hsecond hraises
    obtain rfl := Option.some.inj (hcall.symm.trans hcall')
    obtain rfl := Option.some.inj (hargs.symm.trans hargs')
    rw [hdone] at hcase
    rcases hcase with ⟨hplain, hbuilt⟩ |
      ⟨⟨s, hs, hwhere⟩, header, rows, names, hrows, hnames, hbuilt⟩
    · have hnone : ¬ ∃ s ∈ t.testStatements, s.introduces? = some .where :=
        fun ⟨s, hs, hwhere⟩ => hplain s hs hwhere
      obtain ⟨-, hmethod⟩ := hother.resolve_right fun hloop => hnone hloop.1
      rw [hbuilt, hmethod]
      have hsame := hbody []
      rw [callsToLocals_nil, callsToLocals_nil] at hsame
      exact .ok (.node (.cons (.same _) (.cons (.same _) (.cons hsame .nil))))
    · obtain ⟨-, header', rows', names', hrows', hnames', hmethod⟩ :=
        hother.resolve_left fun hplain => hplain.1 s hs hwhere
      obtain ⟨rfl, rfl⟩ := List.cons.inj (hrows.symm.trans hrows')
      obtain rfl := Except.ok.inj (hnames.symm.trans hnames')
      rw [hbuilt, hmethod]
      exact .ok (.loop (hbody names))

end Generate

/-! ## Expanding a tree twice -/

namespace Phases

open Generate (IsGeneric Resaid asserted)

variable {mode : Mode}

private theorem agree_expandTest {t : Tree} (hmade : ∀ names s, IsGeneric t.testStatements s →
      made (asserted first names s) (asserted second names s)) :
    Agree (Resaid made) (expandTest mode first t) (expandTest mode second t) := by
  unfold expandTest
  split
  · exact .ok (.same t)
  · refine (TestMethod.failAlike_parse t).bind fun test other hfirst hsecond _ => ?_
    exact Generate.agree_method hfirst hsecond hmade

/-- Two assertions of one generic statement of a test that lies in no other test, generated in two
contexts. -/
def Reasserted (first second : Context) (t a b : Tree) : Prop :=
  ∃ entry ∈ t.outerTests, ∃ names s, IsGeneric entry.2.testStatements s ∧
    a = asserted first names s ∧ b = asserted second names s

mutual

private theorem agree_expand (hfinished : first.finished = second.finished) : (t : Tree) →
    (∀ entry ∈ t.outerTests, ∀ names s, IsGeneric entry.2.testStatements s →
      made (asserted first names s) (asserted second names s)) →
    Agree (Resaid made) (expand mode first t) (expand mode second t)
  | .leaf value, _ => by
    rw [expand, expand]
    exact .ok (.same _)
  | .node tag children location, hmade => by
    have hpassed : first.isFinished (.node tag children location) =
        second.isFinished (.node tag children location) := by
      unfold Context.isFinished
      rw [hfinished]
    rw [expand, expand, hpassed]
    split
    · exact .ok (.same _)
    · split
      · rename_i htest
        rw [Tree.outerTests_test htest, List.forall_mem_singleton] at hmade
        exact agree_expandTest hmade
      · rename_i hother
        rw [Tree.outerTests_other (Bool.not_eq_true _ ▸ hother)] at hmade
        refine (agree_expandAll hfinished children fun c hc entry hentry => ?_).bind
          fun _ _ _ _ hothers => .ok (.node hothers)
        obtain ⟨index, hindex⟩ := List.mem_iff_getElem?.mp hc
        exact hmade ((0 + index) :: entry.1, entry.2)
          (Tree.mem_outerTestsAll.mpr ⟨index, c, entry.1, hindex, rfl, hentry⟩)

private theorem agree_expandAll (hfinished : first.finished = second.finished) :
    (trees : List Tree) →
    (∀ t ∈ trees, ∀ entry ∈ t.outerTests, ∀ names s, IsGeneric entry.2.testStatements s →
      made (asserted first names s) (asserted second names s)) →
    Agree (List.Forall₂ (Resaid made)) (expandAll mode first trees) (expandAll mode second trees)
  | [], _ => by
    rw [expandAll, expandAll]
    exact .ok .nil
  | t :: rest, hmade => by
    obtain ⟨hhere, hlater⟩ := List.forall_mem_cons.mp hmade
    rw [expandAll, expandAll]
    refine (agree_expand hfinished t hhere).bind fun _ _ _ _ hfirst => ?_
    exact (agree_expandAll hfinished rest hlater).bind
      fun _ _ _ _ hothers => .ok (.cons hfirst hothers)

end

/-- Two contexts with the same finished targets may know different source texts. Expanding a tree in
both of them fails with the same error, or succeeds in both; then the results are the same, spans
included, up to the messages of assertions of generic statements. -/
theorem messages_of_expand (mode : Mode) (first second : Context)
    (hfinished : first.finished = second.finished) (t : Tree) :
    Agree (Resaid (Reasserted first second t)) (expand mode first t) (expand mode second t) :=
  agree_expand hfinished t fun entry hentry names s hgeneric =>
    ⟨entry, hentry, names, s, hgeneric, rfl, rfl⟩

/-- A condition that was read from the first four bytes of a text. -/
def openCondition : Tree :=
  (Tree.Build.call (some (Tree.Build.call none "door" [])) "open?" []).located
    (some ⟨0, 4, ⟨1, 1⟩, ⟨1, 4⟩⟩)

/-- A test that states it. -/
def openTest : Tree :=
  Tree.Build.fresh "block"
    [Tree.Build.call none "test" [Tree.Build.str "opens"], Tree.Build.fresh "args" [],
     Tree.Build.begin [Tree.Build.call none "Expect" [], openCondition]]

/-- With a text at hand its assertion repeats the four bytes, without one the written form, and that
is all. -/
theorem messages_of_expand_openTest :
    let built (said : String) := Tree.Build.fresh "block"
      [Tree.Build.call none "test" [Tree.Build.str "opens"], Tree.Build.fresh "args" [],
       Tree.Build.begin [Generate.assertEqual (Tree.Build.fresh "true" []) openCondition said
         openCondition.location]]
    let a := built "Expected \"door\" to be true"
    let b := built "Expected \"(send (send nil :door) :open?)\" to be true"
    (Context.ofText "door").finished = Context.detached.finished ∧
      expand .strict (.ofText "door") openTest = .ok a ∧
      expand .strict .detached openTest = .ok b ∧
      Resaid (Reasserted (.ofText "door") .detached openTest) a b := by
  intro built a b
  have ha : expand .strict (.ofText "door") openTest = .ok a := rfl
  have hb : expand .strict .detached openTest = .ok b := rfl
  have hagree := messages_of_expand .strict (.ofText "door") .detached rfl openTest
  rw [ha, hb] at hagree
  cases hagree with
  | ok hrelated => exact ⟨rfl, ha, hb, hrelated⟩

end Phases

end PhasedTests
